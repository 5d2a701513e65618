import Mathlib.Algebra.BigOperators.Ring.List
import Mathlib.Data.Nat.Log
import Pequin.Lib.Generator
import Pequin.Lib.TwosComplement

/-!
# The constraint builder of the storage operations

The constraints for operations on the database are not compiled. A generator writes them once as a
template, whose variables are numbered, or are external and get their names when the template is
used. Besides the rows of the constraint matrices it writes the worksheet commands for the prover.

A row is `A * B + C = 0`. The builder's first two variables are the constants `0` and `1`, and a
term of the first one is left out of every row.
-/

namespace Pequin.Merkle
open Generator

/-- The external variables `VAR_INDEX`, `VAR_VALUE_i`, `VAR_INHASH_i` and `VAR_OUTHASH_i`. -/
inductive Ext where
  | index
  | value (i : ℕ)
  | inHash (i : ℕ)
  | outHash (i : ℕ)
  deriving DecidableEq, Repr

abbrev Var := Generator.Wire Ext

/-- A polynomial of a worksheet: the sum of products of a constant and variables. -/
abbrev CmdPoly := List (ℤ × List Var)

inductive Cmd where
  /-- `P y = poly E` -/
  | poly (y : Var) (poly : CmdPoly)
  /-- `SI x into numBits bits at Vy` -/
  | split (x : Var) (numBits y : ℕ)
  | matrixVecMul (numRows : ℕ) (inVec outVec : List Var)
  | dbGetBits (index : Var) (outValues : List Var)
  | dbPutBits (index : Var) (values : List Var)
  /-- `DB_GET_SIBLING_HASH index level Vy` -/
  | dbGetSiblingHash (index : Var) (level y : ℕ)
  | getBlockByHash (hashBits outValues : List Var)

abbrev Gen := Generator.Gen Ext Cmd

def zero : Var := .fresh 0

def one : Var := .fresh 1

def t (x : Var) : ℤ × Option Var := (1, some x)

def tn (x : Var) : ℤ × Option Var := (-1, some x)

/-- The terms that are written to a matrix. -/
def matTerms (ts : Terms Ext) : Terms Ext := ts.filter fun t => t.2 ≠ some zero

def addCons (a b c : Terms Ext) : Gen Unit := Gen.row ⟨matTerms a, matTerms b, matTerms c⟩

/-- The constants `Zero` and `One`. The constraint of `Zero` is written while no variable is left
out; instead its constant term is. -/
def newConstraintBuilder : Gen Unit := do
  let zero ← Gen.fresh
  Gen.row ⟨[], [], [tn zero]⟩
  Gen.cmd (.poly zero [(0, [])])
  let one ← Gen.fresh
  addCons [] [] [(1, none), tn one]
  Gen.cmd (.poly one [(1, [])])

def ensureBit (x : Var) : Gen Unit := addCons [t x] [t x] [tn x]

/-- The weights of a list of bits, the highest first. -/
def weights (xi : List Var) : List (ℤ × Var) :=
  xi.zipIdx.map fun v => (2 ^ (xi.length - 1 - v.2), v.1)

def sumOfPowers (xi : List Var) (x : Var) (printPoly : Bool) : Gen Unit := do
  addCons [] [] ((weights xi).map (fun v => (v.1, some v.2)) ++ [tn x])
  if printPoly then Gen.cmd (.poly x ((weights xi).map fun v => (v.1, [v.2])))

def firstNumber : List Var → ℕ
  | .fresh n :: _ => n
  | _ => 0

def newBit : Gen Var := do
  let v ← Gen.fresh
  ensureBit v
  pure v

def split (x : Var) (numBits : ℕ) : Gen (List Var) := do
  let xi ← Gen.each (fun _ => newBit) (List.range numBits)
  Gen.cmd (.split x numBits (firstNumber xi))
  sumOfPowers xi x false
  pure xi

def combine (xi : List Var) : Gen Var := do
  let x ← Gen.fresh
  sumOfPowers xi x true
  pure x

/-- The last `l` of the `n` bits of `x`. -/
def modBits (x : Var) (n l : ℕ) : Gen (List Var) := do
  let xi ← split x n
  pure (xi.drop (n - l))

def assignment (y x : Var) : Gen Unit := do
  addCons [] [] [t x, tn y]
  Gen.cmd (.poly y [(1, [x])])

def sum (values : List Var) : Gen Var := do
  let z ← Gen.fresh
  addCons [] [] (values.map t ++ [tn z])
  Gen.cmd (.poly z (values.map fun v => (1, [v])))
  pure z

def mult (x y : Var) : Gen Var := do
  let z ← Gen.fresh
  addCons [t x] [t y] [tn z]
  Gen.cmd (.poly z [(1, [x, y])])
  pure z

/-- `-2xy + x + y` -/
def xorBit (x y : Var) : Gen Var := do
  let z ← Gen.fresh
  addCons [(-2, some x)] [t y] [t x, t y, tn z]
  Gen.cmd (.poly z [(-2, [x, y]), (1, [x]), (1, [y])])
  pure z

def xor (xi yi : List Var) : Gen (List Var) := Gen.each (fun c => xorBit c.1 c.2) (xi.zip yi)

def ifThenElse (choiceBit cond1 cond2 : Var) : Gen Var := do
  let result ← Gen.fresh
  addCons [t choiceBit] [t cond1, tn cond2] [t cond2, tn result]
  Gen.cmd (.poly result [(1, [choiceBit, cond1]), (-1, [choiceBit, cond2]), (1, [cond2])])
  pure result

def ifThenElseArray (choiceBit : Var) (cond1 cond2 : List Var) : Gen (List Var) :=
  Gen.each (fun c => ifThenElse choiceBit c.1 c.2) (cond1.zip cond2)

/-- The constraint of one row of a product: the constants `Zero` and `One` in the vector are
evaluated. -/
def rowTerms (row : ℕ → ℤ) (vector : List Var) : Terms Ext :=
  (vector.zipIdx.filter fun v => ¬ (v.1 = zero ∨ row v.2 = 0) ∧ v.1 ≠ one).map fun v =>
    (row v.2, some v.1)

def constPart (row : ℕ → ℤ) (vector : List Var) : ℤ :=
  ((vector.zipIdx.filter fun v => ¬ (v.1 = zero ∨ row v.2 = 0) ∧ v.1 = one).map fun v =>
    row v.2).sum

def matrixVectorMul (matrix : ℕ → ℕ → ℤ) (vector : List Var) (numRows : ℕ) : Gen (List Var) := do
  let z ← Gen.each (fun i => do
    let z ← Gen.fresh
    addCons [] [] (rowTerms (matrix i) vector ++ [(constPart (matrix i) vector, none), tn z])
    pure z) (List.range numRows)
  Gen.cmd (.matrixVecMul numRows vector z)
  pure z

/-- The values come from the database: no constraint is written. -/
def dbGetBits (index : Var) (outValues : List Var) : Gen Unit :=
    Gen.cmd (.dbGetBits index outValues)

def dbPutBits (index : Var) (values : List Var) : Gen Unit := Gen.cmd (.dbPutBits index values)

def siblingHash (index : Var) (level numHashBits : ℕ) : Gen (List Var) := do
  let hashBits ← Gen.each (fun _ => Gen.fresh) (List.range numHashBits)
  Gen.cmd (.dbGetSiblingHash index level (firstNumber hashBits))
  pure hashBits

def getBlockByHash (hashBits outValues : List Var) : Gen Unit :=
  Gen.cmd (.getBlockByHash hashBits outValues)

/-! ## The prover's commands -/

/-- What the commands read besides the variables: the matrix, and the prover's copy of the database.
The bits of hashes are listed from the low end, as the database stores them. -/
structure Env where
  aMat : ℕ → ℕ → ℤ
  ram : ℕ → List ℤ
  numHashBits : ℕ
  siblingHash : ℕ → ℕ → List ℤ
  block : List ℤ → List ℤ

def Env.address (v : ℤ) : ℕ := v.natAbs % 2 ^ 32

def CmdPoly.eval (s : Var → ℤ) (p : CmdPoly) : ℤ := (p.map fun m => m.1 * (m.2.map s).prod).sum

def dot (row : ℕ → ℤ) (xs : List ℤ) : ℤ := (xs.zipIdx.map fun x => row x.2 * x.1).sum

namespace Cmd

def targets (env : Env) : Cmd → List Var
  | poly y _ => [y]
  | split _ numBits y => block y numBits
  | matrixVecMul _ _ outVec => outVec
  | dbGetBits _ outValues => outValues
  | dbPutBits _ _ => []
  | dbGetSiblingHash _ _ y => block y env.numHashBits
  | getBlockByHash _ outValues => outValues

/-- The values that are written to the targets. The bits of a number and of a sibling hash are
written from the high end, and a block that is too short is filled up with zeros. -/
def values (env : Env) (s : Var → ℤ) : Cmd → List ℤ
  | poly _ p => [p.eval s]
  | split x numBits _ => (TwosComplement.bitsOf numBits (s x)).reverse
  | matrixVecMul numRows inVec _ => (List.range numRows).map fun i => dot (env.aMat i) (inVec.map s)
  | dbGetBits index _ => env.ram (Env.address (s index))
  | dbPutBits _ _ => []
  | dbGetSiblingHash index level _ => (env.siblingHash (Env.address (s index)) level).reverse
  | getBlockByHash hashBits outValues =>
    let block := env.block (hashBits.map s)
    (List.range outValues.length).map fun i => block.getD i 0

end Cmd

def machine (env : Env) : Machine Ext Cmd where
  step c s := writeAll (c.targets env) (c.values env s) s

end Pequin.Merkle
