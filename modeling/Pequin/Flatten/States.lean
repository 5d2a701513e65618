import Mathlib.Data.List.Basic
import Pequin.Flatten.Rewrite
import Pequin.Lib.FallThrough

/-!
# The states of a flattened loop

`AttributedStmtVisitor` turns a loop into the code of consecutive states. A loop has a first state,
which decides whether the body is entered, the states of its body, and a last one, its target state,
which goes back to the body or on. In a compound statement, the statements between loops and
compound statements share a state, up to one with a `break` or `continue`.

The code of a state runs if the state variable has its number, and the whole is repeated a given
number of times.
-/

namespace Pequin.Flatten

open Structured FallThrough

variable {S : Type}

/-! ## Numbers of states -/

/-- `isLoopOrCompound`: the statement has states of its own. -/
def isLoopOrCompound : Stmt S → Bool
  | .loop .. | .block _ => true
  | _ => false

mutual
def countStates : Stmt S → ℕ
  | .loop _ s => 2 + countStates s
  | .block b => countCompound false b
  | _ => 1

def countCompound (inState : Bool) : Block S → ℕ
  | .nil => 0
  | .cons s b =>
    if isLoopOrCompound s then countStates s + countCompound false b
    else (if inState then 0 else 1) + countCompound (!needsRewrite s) b
end

/-! ## Code of states -/

/-- The first state of a loop. A `do` loop enters its body, the others test the condition; only a
`for` loop has statements to run before and after. -/
def firstState (head : LoopHead S) (exit : ℕ) : Block (Config S) :=
  .cons (.expr (storeLens.liftFun head.init))
    (.cons (if head.testFirst then .ifElse (storeLens.liftCond head.cond) incState (setState exit)
      else incState) .nil)

def lastState (head : LoopHead S) (bodyState : ℕ) : Block (Config S) :=
  .cons (.expr (storeLens.liftFun head.inc))
    (.cons (.ifElse (storeLens.liftCond head.cond) (setState bodyState) incState) .nil)

/-- `clearBreakEnd` or `stateEnd`. -/
def stateEnd (clearBreak : Bool) : Block (Config S) :=
  if clearBreak then .cons (setGuard false) (.cons incState .nil) else .cons incState .nil

/-- The state that is open in a compound statement is closed. -/
def closeState : Option (Block (Config S)) → List (Block (Config S))
  | none => []
  | some code => [code ++ stateEnd false]

theorem length_closeState (inState : Option (Block (Config S))) (n : ℕ) :
    (closeState inState).length + ((if inState.isSome then 0 else 1) + n) = n + 1 := by
  cases inState with
  | none => exact (Nat.zero_add _).trans (Nat.add_comm 1 n)
  | some code => exact (congrArg (1 + ·) (Nat.zero_add n)).trans (Nat.add_comm 1 n)

mutual
/-- `flattenBody` and `flattenLoop`: the states of a statement from `stateCnt` on. -/
def flattenBody (targetState stateCnt : ℕ) : Stmt S → Option (List (Block (Config S)))
  | .loop head s =>
    -- the text of an empty clause is taken from a null pointer
    if head.complete then do
      let numStates := 2 + countStates s
      let body ← flattenBody (stateCnt + numStates - 1) (stateCnt + 1) s
      some (firstState head (stateCnt + numStates) :: (body ++ [lastState head (stateCnt + 1)]))
    else none
  | .block b => flattenCompoundStmt targetState stateCnt none b
  | s => do
    let code ← doRewrite targetState s
    some [code ++ stateEnd (needsRewrite s)]

/-- `flattenCompoundStmt`, where `inState` is the code of the state that is open. -/
def flattenCompoundStmt (targetState stateCnt : ℕ) (inState : Option (Block (Config S))) :
    Block S → Option (List (Block (Config S)))
  | .nil => some (closeState inState)
  | .cons s b =>
    if isLoopOrCompound s then do
      let pre := closeState inState
      let states ← flattenBody targetState (stateCnt + pre.length) s
      let rest ← flattenCompoundStmt targetState (stateCnt + pre.length + states.length) none b
      some (pre ++ states ++ rest)
    else do
      let code ← doRewrite targetState s
      let code := inState.getD .nil ++ code
      if needsRewrite s then do
        let rest ← flattenCompoundStmt targetState (stateCnt + 1) none b
        some ((code ++ stateEnd true) :: rest)
      else flattenCompoundStmt targetState stateCnt (some code) b
end

def flattenLoop (s : Stmt S) : Option (List (Block (Config S))) :=
  match s with
  | .loop .. => flattenBody 0 0 s
  | _ => none

/-! ## The machine -/

/-- The tests of the states from `k` on. -/
def tests (k : ℕ) : List (Block (Config S)) → Block (Config S)
  | [] => .nil
  | code :: codes => .cons (.ifThen (fun τ => τ.state == k) (.block code)) (tests (k + 1) codes)

/-- The variables of the states, next to the count of iterations. -/
def configLens : Lens (Config S) (Config S × ℕ) where
  get := Prod.fst
  set τ σ := (σ, τ.2)
  get_set _ _ := rfl
  set_get _ := rfl
  set_set _ _ _ := rfl

/-- `while (count < numIters) { ... count++; }`. -/
def machine (numIters : ℕ) (codes : List (Block (Config S))) : Stmt (Config S × ℕ) :=
  .while_ (fun τ => decide (τ.2 < numIters))
    (.block ((tests 0 codes).lift configLens ++ .cons (.expr fun τ => (τ.1, τ.2 + 1)) .nil))

def initial (σ : S) : Config S × ℕ := (⟨σ, 0, false⟩, 0)

end Pequin.Flatten
