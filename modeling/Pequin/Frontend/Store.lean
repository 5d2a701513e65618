import Mathlib.Data.Int.Notation
import Mathlib.Data.Nat.Notation
import Mathlib.Logic.Function.Basic

/-!
# Expanding array accesses

The frontend expands a program to straight-line code. The elements of an array live at RAM
addresses; an element accessed at a constant index is kept in a variable, its cached lvalue, and an
access at an index that is known only at run time goes to RAM. `CacheManager` remembers which
elements are cached and writes them back before their array is accessed in RAM.

Both branches of an `if` are expanded one after the other, each in a scope of its own, and the
variables are merged by the condition. A store to RAM cannot be merged: it carries a condition and
the branch it stands in.
-/

namespace Pequin

namespace Frontend

abbrev Var := ℕ

abbrev Scalars := Var → ℤ

/-- A right-hand side: a constant, or any other expression over the variables. -/
inductive Rhs where
  | const (c : ℤ)
  | expr (f : Scalars → ℤ)

def Rhs.eval (σ : Scalars) : Rhs → ℤ
  | .const c => c
  | .expr f => f σ

def Rhs.isZero : Rhs → Bool
  | .const c => c = 0
  | .expr _ => false

/-- An array at `len` addresses from `base` on. -/
structure Arr where
  base : ℕ
  len : ℕ

/-- `possibleAddresses` of an access at an index that is not a constant. -/
def Arr.possibleAddresses (arr : Arr) : List ℕ := (List.range arr.len).map (arr.base + ·)

/-- A condition that is a constant when it is tested, or one that is known at run time. -/
inductive Cond where
  | const (b : Bool)
  | run (f : Scalars → Bool)

def Cond.eval (σ : Scalars) : Cond → Bool
  | .const b => b
  | .run f => f σ

/-- The statements with no branches. Elements at a constant index are given by their addresses. -/
inductive Simple where
  | assign (x : Var) (e : Rhs)
  | setConst (addr : ℕ) (e : Rhs)
  | getConst (x : Var) (addr : ℕ)
  | setDyn (arr : Arr) (i : Scalars → ℕ) (e : Rhs)
  | getDyn (x : Var) (arr : Arr) (i : Scalars → ℕ)

inductive Stmt where
  | simple (s : Simple)
  | skip
  | seq (s t : Stmt)
  | ite (c : Cond) (thenBlock elseBlock : Stmt)

/-! ## The expanded code -/

/-- The condition and the branch of a store; a store outside of all branches is always executed. -/
inductive Guard where
  | always
  | cond (k : ℕ) (branch : Bool)
  deriving DecidableEq

/-- The store is executed if the value of the condition agrees with the branch. -/
def Guard.Executed (conds : ℕ → Bool) : Guard → Prop
  | .always => True
  | .cond k branch => conds k = branch

instance (conds : ℕ → Bool) : (g : Guard) → Decidable (g.Executed conds)
  | .always => inferInstanceAs (Decidable True)
  | .cond k branch => inferInstanceAs (Decidable (conds k = branch))

inductive Code where
  | skip
  | seq (p q : Code)
  | assign (x : Var) (e : Rhs)
  /-- The cached lvalue of an element is assigned. -/
  | setLval (addr : ℕ) (e : Rhs)
  | getLval (x : Var) (addr : ℕ)
  /-- The cached lvalue is loaded from RAM. -/
  | ramget (addr : ℕ)
  | ramgetDyn (x : Var) (arr : Arr) (i : Scalars → ℕ)
  /-- The cached lvalue is written to RAM, on the condition `IntConstant.ONE`. -/
  | flush (addr : ℕ)
  | ramput (arr : Arr) (i : Scalars → ℕ) (e : Rhs) (guard : Guard)
  /-- The element is loaded from RAM, into a version of its lvalue that nothing uses. -/
  | reload (addr : ℕ)
  /-- The variable of the condition `k` is assigned. -/
  | test (k : ℕ) (f : Scalars → Bool)
  /-- Two scopes, merged by the condition `k`. -/
  | mux (k : ℕ) (p q : Code)

/-! ## CacheManager -/

/-- What the compiler knows: the sets `notCached` and `shouldFlush`, the elements whose lvalue is
assigned the constant zero, the stack of conditions with their branches, and the next condition. -/
structure CState where
  notCached : ℕ → Bool
  shouldFlush : ℕ → Bool
  zero : ℕ → Bool
  conditions : List (ℕ × Bool)
  next : ℕ

namespace CState

def addCache (addr : ℕ) (cs : CState) : CState :=
  { cs with notCached := Function.update cs.notCached addr false }

/-- A cached element is written back, unless it is the first time and its value is the constant
zero, which is what RAM holds at the start. -/
def invalidateCache (addr : ℕ) (cs : CState) : Code × CState :=
  if cs.notCached addr then (.skip, cs)
  else
    (if !cs.shouldFlush addr && cs.zero addr then .skip else .flush addr,
      { cs with
        notCached := Function.update cs.notCached addr true
        shouldFlush := Function.update cs.shouldFlush addr true })

def expandEach (f : ℕ → CState → Code × CState) : List ℕ → CState → Code × CState
  | [], cs => (.skip, cs)
  | addr :: rest, cs =>
    let (p, cs) := f addr cs
    let (q, cs) := expandEach f rest cs
    (.seq p q, cs)

def invalidateAll (addrs : List ℕ) (cs : CState) : Code × CState :=
  cs.expandEach invalidateCache addrs

/-- `getCondition` and `getBranch`: the innermost condition only. -/
def guard (cs : CState) : Guard :=
  match cs.conditions with
  | [] => .always
  | (k, branch) :: _ => .cond k branch

end CState

/-! ## The expansion -/

/-- The elements whose lvalue is assigned. -/
def Code.assigned : Code → List ℕ
  | .seq p q | .mux _ p q => p.assigned ++ q.assigned
  | .setLval addr _ | .ramget addr => [addr]
  | _ => []

def Simple.expand (cs : CState) : Simple → Code × CState
  | .assign x e => (.assign x e, cs)
  | .setConst addr e =>
    (.setLval addr e, { cs.addCache addr with zero := Function.update cs.zero addr e.isZero })
  | .getConst x addr =>
    if cs.notCached addr then
      (.seq (.ramget addr) (.getLval x addr),
        { cs.addCache addr with zero := Function.update cs.zero addr false })
    else (.getLval x addr, cs)
  | .setDyn arr i e =>
    let (p, cs) := cs.invalidateAll arr.possibleAddresses
    (.seq p (.ramput arr i e cs.guard), cs)
  | .getDyn x arr i =>
    let (p, cs) := cs.invalidateAll arr.possibleAddresses
    (.seq p (.ramgetDyn x arr i), cs)

def CState.pushCondition (k : ℕ) (branch : Bool) (cs : CState) : CState :=
  { cs with conditions := (k, branch) :: cs.conditions }

def CState.popCondition (cs : CState) : CState := { cs with conditions := cs.conditions.tail }

def CState.enterThen (cs : CState) : CState :=
  CState.pushCondition cs.next true { cs with next := cs.next + 1 }

/-- The state in which the second branch is expanded, where `cs` is the state before and `cs'` the
state at the end of the first: its scope is left, the sets of the cache are not. -/
def CState.enterElse (cs cs' : CState) : CState :=
  CState.pushCondition cs.next false { cs'.popCondition with zero := cs.zero }

/-- `expandMuxStatements` evaluates the lvalues of an element that was assigned in a branch. If the
element is not cached, it is loaded and counts as cached from then on, but the merged lvalue takes
the place of the loaded one. -/
def CState.evaluate (addr : ℕ) (cs : CState) : Code × CState :=
  if cs.notCached addr then (.reload addr, cs.addCache addr) else (.skip, cs)

/-- The state after an `if` in which the elements of `merged` were assigned: their lvalues are muxes
now, which are not constants. `cs` is the state before, `cs'` the state at the end. -/
def CState.join (merged : List ℕ) (cs cs' : CState) : CState :=
  { cs' with zero := fun a => cs.zero a && decide (a ∉ merged) }

/-- If the condition is a constant, the branch that it selects takes the place of the `if`. -/
def Stmt.expand (cs : CState) : Stmt → Code × CState
  | .simple s => s.expand cs
  | .skip => (.skip, cs)
  | .seq s t =>
    let (p, cs) := s.expand cs
    let (q, cs) := t.expand cs
    (.seq p q, cs)
  | .ite (.const b) thenBlock elseBlock =>
    if b then thenBlock.expand cs else elseBlock.expand cs
  | .ite (.run f) thenBlock elseBlock =>
    let (p, cs₁) := thenBlock.expand cs.enterThen
    let (q, cs₂) := elseBlock.expand (cs.enterElse cs₁)
    let merged := p.assigned ++ q.assigned
    let (r, cs₃) := cs₂.popCondition.expandEach CState.evaluate merged
    (.seq (.test cs.next f) (.seq (.mux cs.next p q) r), CState.join merged cs cs₃)

/-- Nothing has been accessed; all elements are zero. -/
def CState.init : CState := ⟨fun _ => false, fun _ => false, fun _ => true, [], 0⟩

/-! ## Running the code -/

/-- The values of the variables, of the cached lvalues and of the conditions, the RAM, and the
values read from arrays so far. -/
structure RState where
  scalars : Scalars
  lvals : ℕ → ℤ
  conds : ℕ → Bool
  ram : ℕ → ℤ
  reads : List ℤ

def RState.init (σ : Scalars) : RState := ⟨σ, fun _ => 0, fun _ => false, fun _ => 0, []⟩

def RState.read (x : Var) (v : ℤ) (rs : RState) : RState :=
  { rs with scalars := Function.update rs.scalars x v, reads := rs.reads ++ [v] }

/-- Both branches of a mux are run, the second one on the variables from before the first. What is
selected are the variables; RAM is what both of them have left. -/
def Code.run (rs : RState) : Code → RState
  | .skip => rs
  | .seq p q => q.run (p.run rs)
  | .assign x e => { rs with scalars := Function.update rs.scalars x (e.eval rs.scalars) }
  | .setLval addr e => { rs with lvals := Function.update rs.lvals addr (e.eval rs.scalars) }
  | .getLval x addr => rs.read x (rs.lvals addr)
  | .ramget addr => { rs with lvals := Function.update rs.lvals addr (rs.ram addr) }
  | .ramgetDyn x arr i => rs.read x (rs.ram (arr.base + i rs.scalars))
  | .flush addr => { rs with ram := Function.update rs.ram addr (rs.lvals addr) }
  | .ramput arr i e guard =>
    if guard.Executed rs.conds then
      { rs with ram := Function.update rs.ram (arr.base + i rs.scalars) (e.eval rs.scalars) }
    else rs
  | .reload _ => rs
  | .test k f => { rs with conds := Function.update rs.conds k (f rs.scalars) }
  | .mux k p q =>
    let rs₁ := p.run rs
    let rs₂ := q.run { rs with conds := rs₁.conds, ram := rs₁.ram }
    { (if rs.conds k then rs₁ else rs₂) with conds := rs₂.conds, ram := rs₂.ram }

/-! ## The C program -/

/-- The state of the C program: variables, elements by their address, and the values read so far. -/
structure CMem where
  scalars : Scalars
  elems : ℕ → ℤ
  reads : List ℤ

def CMem.init (σ : Scalars) : CMem := ⟨σ, fun _ => 0, []⟩

def CMem.read (x : Var) (addr : ℕ) (m : CMem) : CMem :=
  { m with
    scalars := Function.update m.scalars x (m.elems addr)
    reads := m.reads ++ [m.elems addr] }

/-- An index out of bounds has no meaning in C. -/
def Simple.exec (m : CMem) : Simple → Option CMem
  | .assign x e => some { m with scalars := Function.update m.scalars x (e.eval m.scalars) }
  | .setConst addr e => some { m with elems := Function.update m.elems addr (e.eval m.scalars) }
  | .getConst x addr => some (m.read x addr)
  | .setDyn arr i e =>
    if i m.scalars < arr.len then
      some { m with
        elems := Function.update m.elems (arr.base + i m.scalars) (e.eval m.scalars) }
    else none
  | .getDyn x arr i =>
    if i m.scalars < arr.len then some (m.read x (arr.base + i m.scalars)) else none

def Stmt.exec (m : CMem) : Stmt → Option CMem
  | .simple s => s.exec m
  | .skip => some m
  | .seq s t => (s.exec m).bind fun m => t.exec m
  | .ite c thenBlock elseBlock =>
    if c.eval m.scalars then thenBlock.exec m else elseBlock.exec m

end Frontend

end Pequin
