import Pequin.Backend.Name
import Mathlib.Algebra.Field.ZMod
import Mathlib.Algebra.Order.Ring.Rat
import Mathlib.Data.Rat.Floor
import Mathlib.Data.ZMod.Basic

/-!
# The prover's worksheet

The backend writes a worksheet of commands, and the prover executes them in order over the
rationals. At the end every variable is converted to a field element (`toField`).

The functions of the prover work on references. A reference to a variable is the variable itself,
but a constant operand is parsed into one of the shared temporaries `tempQ` and `tempQ2`, and a
second constant parsed into the same temporary overwrites the first. `Ref` and `voc` keep this.
-/

namespace Pequin

structure Prover where
  vals : Name → ℚ
  tempQ : ℚ
  tempQ2 : ℚ
  /-- The cells of `true_ram` that exist. -/
  trueRam : ℕ → Option ℚ

inductive Ref where
  | var (x : Name)
  | tempQ
  | tempQ2
  deriving DecidableEq, Repr

namespace Prover

def get (s : Prover) : Ref → ℚ
  | .var x => s.vals x
  | .tempQ => s.tempQ
  | .tempQ2 => s.tempQ2

def set (s : Prover) (r : Ref) (v : ℚ) : Prover :=
  match r with
  | .var x => { s with vals := Function.update s.vals x v }
  | .tempQ => { s with tempQ := v }
  | .tempQ2 => { s with tempQ2 := v }

def setRam (s : Prover) (addr : ℕ) (v : ℚ) : Prover :=
  { s with trueRam := Function.update s.trueRam addr (some v) }

section
variable (s : Prover) (r : Ref) (x : Name) (a : ℕ) (v : ℚ)

@[simp] theorem get_var : s.get (.var x) = s.vals x := rfl

@[simp] theorem get_tempQ : s.get .tempQ = s.tempQ := rfl

@[simp] theorem get_tempQ2 : s.get .tempQ2 = s.tempQ2 := rfl

@[simp] theorem set_var_vals : (s.set (.var x) v).vals = Function.update s.vals x v := rfl

@[simp] theorem set_var_tempQ : (s.set (.var x) v).tempQ = s.tempQ := rfl

@[simp] theorem set_var_tempQ2 : (s.set (.var x) v).tempQ2 = s.tempQ2 := rfl

@[simp] theorem set_tempQ_vals : (s.set .tempQ v).vals = s.vals := rfl

@[simp] theorem set_tempQ_tempQ : (s.set .tempQ v).tempQ = v := rfl

@[simp] theorem set_tempQ_tempQ2 : (s.set .tempQ v).tempQ2 = s.tempQ2 := rfl

@[simp] theorem set_tempQ2_vals : (s.set .tempQ2 v).vals = s.vals := rfl

@[simp] theorem set_tempQ2_tempQ : (s.set .tempQ2 v).tempQ = s.tempQ := rfl

@[simp] theorem set_tempQ2_tempQ2 : (s.set .tempQ2 v).tempQ2 = v := rfl

@[simp] theorem set_trueRam : (s.set r v).trueRam = s.trueRam := by cases r <;> rfl

@[simp] theorem setRam_vals : (s.setRam a v).vals = s.vals := rfl

@[simp] theorem setRam_trueRam :
    (s.setRam a v).trueRam = Function.update s.trueRam a (some v) := rfl

end

end Prover

/-- "Variable or constant": a reference to the variable, or to `useIfConstant` after the constant
was written there. -/
def voc (a : Arg Name) (useIfConstant : Ref) (s : Prover) : Ref × Prover :=
  match a with
  | .var x => (.var x, s)
  | .const c => (useIfConstant, s.set useIfConstant c)

@[simp] theorem voc_var (x : Name) (r : Ref) (s : Prover) : voc (.var x) r s = (.var x, s) := rfl

@[simp] theorem voc_const (c : ℤ) (r : Ref) (s : Prover) :
    voc (.const c) r s = (r, s.set r c) := rfl

def toField (p : ℕ) (q : ℚ) : ZMod p :=
  if q.den = 1 then q.num else (q.den : ZMod p)⁻¹ * q.num

@[simp] theorem toField_intCast (p : ℕ) (n : ℤ) : toField p n = n := by simp [toField]

@[simp] theorem toField_zero (p : ℕ) : toField p 0 = 0 := by simp [toField]

@[simp] theorem toField_one (p : ℕ) : toField p 1 = 1 := by simp [toField]

def Prover.witness (p : ℕ) (s : Prover) (x : Name) : ZMod p := toField p (s.vals x)

/-! ## Polynomials -/

/-- The local variables of one call of `compute_poly`. -/
structure PolyAcc where
  polyTarget : ℚ
  termTarget : ℚ
  hasTerms : Bool
  hasFactors : Bool
  isEmpty : Bool
  negate : Bool

namespace PolyAcc

def init : PolyAcc := ⟨0, 0, false, false, true, false⟩

/-- Emit the last term, if there is one. -/
def emit (acc : PolyAcc) : PolyAcc :=
  if acc.hasFactors then
    let term := if acc.negate then -acc.termTarget else acc.termTarget
    { polyTarget := if acc.hasTerms then acc.polyTarget + term else term
      termTarget := term
      hasTerms := true
      hasFactors := false
      isEmpty := false
      negate := false }
  else acc

def factor (acc : PolyAcc) (v : ℚ) : PolyAcc :=
  { acc with
    termTarget := if acc.hasFactors then acc.termTarget * v else v
    hasFactors := true }

def result (acc : PolyAcc) : ℚ := if acc.emit.isEmpty then 0 else acc.emit.polyTarget

end PolyAcc

/-- The calls of `compute_poly` that fit on the prover's stack of temporaries: two of the sixteen
temporaries are used by each. -/
def polyCalls : ℕ := 8

/-- The end of the worksheet line returns from every open call. -/
def returnAll : List PolyAcc → PolyAcc → ℚ
  | [], acc => acc.result
  | caller :: calls, acc => returnAll calls (caller.factor acc.result)

/-- `compute_poly`, with the callers' local variables in `calls`, the innermost first. A
parenthesis opened when all temporaries are in use is an error: nothing is read for it, and it
counts as a factor `0`. -/
def computePoly (vals : Name → ℚ) : List (Token Name) → List PolyAcc → PolyAcc → ℚ
  | [], calls, acc => returnAll calls acc
  | .lpar :: toks, calls, acc =>
    if calls.length + 1 < polyCalls then computePoly vals toks (acc :: calls) .init
    else computePoly vals toks calls (acc.factor 0)
  | .rpar :: _, [], acc => acc.result
  | .rpar :: toks, caller :: calls, acc => computePoly vals toks calls (caller.factor acc.result)
  | .plus :: toks, calls, acc => computePoly vals toks calls acc.emit
  | .minus :: toks, calls, acc =>
    computePoly vals toks calls { acc.emit with negate := !acc.emit.negate }
  | .star :: toks, calls, acc => computePoly vals toks calls acc
  | .int c :: toks, calls, acc => computePoly vals toks calls (acc.factor c)
  | .name x :: toks, calls, acc => computePoly vals toks calls (acc.factor (vals x))

/-! ## Commands -/

/-- A command of the worksheet. Bit variables have consecutive numbers: `bits i` is the one `i`
places after `N_0`, and `dBits i` the one `i` places after `D_0`. -/
inductive Cmd where
  | poly (y : Arg Name) (toks : List (Token Name))
  | exactDivide (y x1 x2 : Arg Name)
  | divideI (y x1 x2 : Arg Name)
  | modI (y x1 x2 : Arg Name)
  | lessI (bits : ℕ → Name) (n : ℕ) (mlt meq mgt x1 x2 y : Arg Name)
  | lessF (bits : ℕ → Name) (na : ℕ) (num : Arg Name) (dBits : ℕ → Name) (nb : ℕ)
      (den nd mlt meq mgt x1 x2 y : Arg Name)
  | notEqual (m x1 x2 y : Arg Name)
  | ramget (addr value : Arg Name)
  | ramput (addr value condition : Arg Name) (branch : Bool) (target : Arg Name)
  | assertZero (y : Arg Name)

/-- The loop that writes `k` low bits of `temp`, each at its weight, from bit variable `i` on. -/
def fillBits (bits : ℕ → Name) (weight : ℕ → ℤ) : ℕ → ℕ → ℤ → Prover → Prover
  | 0, _, _, s => s
  | k + 1, i, temp, s =>
    fillBits bits weight k (i + 1) (temp.tdiv 2)
      (s.set (.var (bits i)) ((temp.tmod 2 * weight i : ℤ) : ℚ))

/-- The three selectors are set from the comparison of `X1` and `X2`. -/
def setSelectors (Mlt Meq Mgt X1 X2 : Ref) (s : Prover) : Prover :=
  let less := s.get X1 < s.get X2
  let equal := s.get X1 = s.get X2
  ((s.set Mlt (if less then 1 else 0)).set Meq (if equal then 1 else 0)).set Mgt
    (if less ∨ equal then 0 else 1)

def computeLessThanInt (bits : ℕ → Name) (n : ℕ) (mlt meq mgt x1 x2 y : Arg Name)
    (s : Prover) : Prover :=
  let (Mlt, s) := voc mlt .tempQ s
  let (Meq, s) := voc meq .tempQ s
  let (Mgt, s) := voc mgt .tempQ s
  let (X1, s) := voc x1 .tempQ s
  let (X2, s) := voc x2 .tempQ s
  let (Y, s) := voc y .tempQ s
  let greater := s.get X2 < s.get X1
  let s := setSelectors Mlt Meq Mgt X1 X2 s
  let diff := if greater then s.get X2 - s.get X1 else s.get X1 - s.get X2
  let s := s.set Y (s.get Mlt)
  fillBits bits (2 ^ ·) (n - 1) 0 (2 ^ (n - 1) + diff.num) s

def computeLessThanFloat (bits : ℕ → Name) (na : ℕ) (num : Arg Name) (dBits : ℕ → Name) (nb : ℕ)
    (den nd mlt meq mgt x1 x2 y : Arg Name) (s : Prover) : Prover :=
  let (N, s) := voc num .tempQ s
  let (D, s) := voc den .tempQ s
  let (ND, s) := voc nd .tempQ s
  let (Mlt, s) := voc mlt .tempQ s
  let (Meq, s) := voc meq .tempQ s
  let (Mgt, s) := voc mgt .tempQ s
  let (X1, s) := voc x1 .tempQ s
  let (X2, s) := voc x2 .tempQ s
  let (Y, s) := voc y .tempQ s
  let greater := s.get X2 < s.get X1
  let equal := s.get X1 = s.get X2
  let s := setSelectors Mlt Meq Mgt X1 X2 s
  let s :=
    if equal then (s.set N (-1)).set D 1
    else
      let s := s.set .tempQ (if greater then s.get X2 - s.get X1 else s.get X1 - s.get X2)
      let diff := s.tempQ
      (s.set N diff.num).set D diff.den
  let s := s.set Y (s.get Mlt)
  let s := fillBits bits (2 ^ ·) na 0 (2 ^ na + (s.get N).num) s
  let s := fillBits dBits (fun _ => 1) (nb + 1) 0 (s.get D).num s
  let s := s.set D (s.get D)⁻¹
  s.set ND (s.get N * s.get D)

/-- The inverse that `mpz_invert` computes, times the denominator. -/
def invertNum (p : ℕ) (q : ℚ) : ℚ := (((q.num : ZMod p)⁻¹.val * q.den : ℕ) : ℚ)

def computeNotEqual (p : ℕ) (m x1 x2 y : Arg Name) (s : Prover) : Prover :=
  let (M, s) := voc m .tempQ s
  let (X1, s) := voc x1 .tempQ s
  let (X2, s) := voc x2 .tempQ2 s
  let (Y, s) := voc y .tempQ s
  if s.get X1 = s.get X2 then
    (s.set M 0).set Y 0
  else
    let s := s.set .tempQ (s.get X1 - s.get X2)
    (s.set M (invertNum p s.tempQ)).set Y 1

/-- The commands `/`, `/I` and `%I`, which leave the target as it is when the divisor is `0`. -/
def computeBinary (op : ℚ → ℚ → ℚ) (y x1 x2 : Arg Name) (s : Prover) : Prover :=
  let (Y, s) := voc y .tempQ s
  let (X1, s) := voc x1 .tempQ s
  let (X2, s) := voc x2 .tempQ2 s
  if s.get X2 ≠ 0 then s.set Y (op (s.get X1) (s.get X2)) else s

def addrIdx (addr : ℚ) : ℕ := addr.num.natAbs % 2 ^ 64

def computeFastRamget (addr value : Arg Name) (s : Prover) : Prover :=
  let (A, s) := voc addr .tempQ s
  let a := s.get A
  let (V, s) := voc value .tempQ s
  s.set V ((s.trueRam (addrIdx a)).getD 0)

def computeFastRamput (addr value condition : Arg Name) (branch : Bool) (target : Arg Name)
    (s : Prover) : Prover :=
  let (A, s) := voc addr .tempQ s
  let a := s.get A
  let (V, s) := voc value .tempQ s
  let v := s.get V
  let (C, s) := voc condition .tempQ s
  let c := s.get C
  let (T, s) := voc target .tempQ s
  if c ≠ 0 then
    if branch then (s.setRam (addrIdx a) v).set T v
    else s.set T ((s.trueRam (addrIdx a)).getD 0)
  else
    -- a store in an else branch that is executed writes the cell but not the target
    if !branch then s.setRam (addrIdx a) v
    else s.set T ((s.trueRam (addrIdx a)).getD 0)

/-- One command. A failed `ASSERT_ZERO` is only reported. -/
def Cmd.exec (p : ℕ) : Cmd → Prover → Prover
  | .poly y toks, s =>
    let (Y, s) := voc y .tempQ s
    s.set Y (computePoly s.vals toks [] .init)
  | .exactDivide y x1 x2, s => computeBinary (· / ·) y x1 x2 s
  | .divideI y x1 x2, s => computeBinary (fun a b => (a.num.tdiv b.num : ℤ)) y x1 x2 s
  | .modI y x1 x2, s => computeBinary (fun a b => (a.num.tmod b.num : ℤ)) y x1 x2 s
  | .lessI bits n mlt meq mgt x1 x2 y, s => computeLessThanInt bits n mlt meq mgt x1 x2 y s
  | .lessF bits na num dBits nb den nd mlt meq mgt x1 x2 y, s =>
    computeLessThanFloat bits na num dBits nb den nd mlt meq mgt x1 x2 y s
  | .notEqual m x1 x2 y, s => computeNotEqual p m x1 x2 y s
  | .ramget addr value, s => computeFastRamget addr value s
  | .ramput addr value condition branch target, s =>
    computeFastRamput addr value condition branch target s
  | .assertZero _, s => s

def execAll (p : ℕ) (cmds : List Cmd) (s : Prover) : Prover := cmds.foldl (fun s c => c.exec p s) s

@[simp] theorem execAll_nil (p : ℕ) (s : Prover) : execAll p [] s = s := rfl

@[simp] theorem execAll_cons (p : ℕ) (c : Cmd) (cs : List Cmd) (s : Prover) :
    execAll p (c :: cs) s = execAll p cs (c.exec p s) := rfl

@[simp] theorem execAll_append (p : ℕ) (cs cs' : List Cmd) (s : Prover) :
    execAll p (cs ++ cs') s = execAll p cs' (execAll p cs s) := by simp [execAll]

end Pequin
