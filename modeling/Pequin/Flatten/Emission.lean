import Mathlib.Data.List.Count
import Mathlib.Data.List.Nodup
import Mathlib.Data.List.Range
import Pequin.Flatten.States

/-!
# Counting and emitting states

The number of states of a loop is counted before its code is emitted: the target of a `break` is
known only then. The visitor works on the statements of the parser, where every other statement is
one with some children, and writes tests of the state variable and assignments to it while a counter
runs along.

Of the text only the numbers are kept: which states are tested, which ones are assigned, and the
operands of the assertions.
-/

namespace Pequin.Flatten.Visitor

inductive LoopKind
  | for_
  | while_
  | do_

mutual
inductive CStmt
  | other (children : CStmts)
  | compound (children : CStmts)
  | loop (kind : LoopKind) (body : CStmt)
  | attributed (flatten : Bool) (sub : CStmt)
  | breakStmt
  | continueStmt

inductive CStmts
  | nil
  | cons (s : CStmt) (rest : CStmts)
end

inductive Piece
  /-- `if (state == n) {` -/
  | test (n : ℕ)
  /-- `state = n;` -/
  | jump (n : ℕ)
  /-- `assert(stateCnt == targetState)` -/
  | check (stateCnt targetState : ℕ)

/-! ## `BreakContinueRewriteVisitor` -/

mutual
/-- The traversal of a statement: the flag afterwards, and what is written. -/
def traverseStmt (targetState : ℕ) (foundStmt : Bool) : CStmt → Bool × List Piece
  | .breakStmt => (true, if targetState ≠ 0 then [.jump targetState] else [])
  | .continueStmt => (true, if targetState ≠ 0 then [.jump (targetState - 1)] else [])
  | .attributed flatten sub =>
    -- a loop that is flattened on its own
    if flatten then (foundStmt, []) else traverseStmt targetState foundStmt sub
  | .loop _ body => traverseStmt targetState foundStmt body
  | .other children => traverseChildren targetState foundStmt children
  | .compound children => traverseCompoundStmt targetState foundStmt children

def traverseChildren (targetState : ℕ) (foundStmt : Bool) : CStmts → Bool × List Piece
  | .nil => (foundStmt, [])
  | .cons s rest =>
    let (foundStmt, text) := traverseStmt targetState foundStmt s
    let (foundStmt, text') := traverseChildren targetState foundStmt rest
    (foundStmt, text ++ text')

/-- The flag is saved, and cleared before each child. -/
def traverseCompoundStmt (targetState : ℕ) (foundStmtSave : Bool) : CStmts → Bool × List Piece
  | .nil => (foundStmtSave, [])
  | .cons s rest =>
    let (foundStmt, text) := traverseStmt targetState false s
    let (foundStmt, text') := traverseCompoundStmt targetState (foundStmtSave || foundStmt) rest
    (foundStmt, text ++ text')
end

def doRewrite (s : CStmt) (tState : ℕ) : Bool × List Piece := traverseStmt tState false s

def needsRewrite (s : CStmt) : Bool := (doRewrite s 0).1

/-! ## Counting -/

def isLoopingEntity : CStmt → Bool
  | .loop _ _ => true
  | .attributed flatten sub => isLoopingEntity sub && !flatten
  | _ => false

def isCompound : CStmt → Bool
  | .compound _ => true
  | _ => false

mutual
def countStates : CStmt → ℕ
  | .loop _ body => 2 + countStates body
  | .attributed flatten sub => if isLoopingEntity sub && !flatten then countStates sub else 1
  | .compound children => countChildren false children
  | _ => 1

def countChildren (inState : Bool) : CStmts → ℕ
  | .nil => 0
  | .cons s rest =>
    if isLoopingEntity s || isCompound s then countStates s + countChildren false rest
    else (if inState then 0 else 1) + countChildren (!needsRewrite s) rest
end

/-! ## Emitting -/

structure Output where
  stateCnt : ℕ
  text : List Piece

/-- The first state of a loop leaves it if the condition does not hold, but that of a `do` loop does
not test it. -/
def exitJump (kind : LoopKind) (exit : ℕ) : List Piece :=
  match kind with
  | .for_ | .while_ => [.jump exit]
  | .do_ => []

mutual
/-- `flattenForLoop`, `flattenWhileLoop` and `flattenDoLoop`. -/
def flattenLoop (stateCnt : ℕ) (s : CStmt) : Output :=
  match s with
  | .loop kind body =>
    let startState := stateCnt
    let numStates := countStates (.loop kind body)
    let targetState := startState + numStates - 1
    let if1 := .test startState :: exitJump kind (startState + numStates)
    let if2 := [.test (startState + 1)]
    let if3 := [.test targetState, .jump (startState + 1)]
    let out := flattenBody targetState if2 if3 (stateCnt + 1) body
    ⟨out.stateCnt, if1 ++ out.text⟩
  | .attributed _ sub => flattenLoop stateCnt sub
  | _ => ⟨stateCnt, []⟩
termination_by (sizeOf s, 0)

def flattenBody (targetState : ℕ) (st2 st3 : List Piece) (stateCnt : ℕ)
    (bodyStmt : CStmt) : Output :=
  match bodyStmt with
  | .compound children =>
    let out := flattenCompoundStmt targetState stateCnt false children
    ⟨out.stateCnt + 1, out.text ++ .check out.stateCnt targetState :: st3⟩
  | s =>
    if isLoopingEntity s then
      let out := flattenLoop stateCnt s
      ⟨out.stateCnt + 1, out.text ++ .check out.stateCnt targetState :: st3⟩
    else ⟨stateCnt + 1 + 1, st2 ++ (doRewrite s targetState).2 ++ st3⟩
termination_by (sizeOf bodyStmt, 1)

def flattenCompoundStmt (targetState stateCnt : ℕ) (inState : Bool) (children : CStmts) : Output :=
  match children with
  | .nil => ⟨stateCnt, []⟩
  | .cons (.compound inner) rest =>
    let out := flattenCompoundStmt targetState stateCnt false inner
    let out' := flattenCompoundStmt targetState out.stateCnt false rest
    ⟨out'.stateCnt, out.text ++ out'.text⟩
  | .cons s rest =>
    if isLoopingEntity s then
      let out := flattenLoop stateCnt s
      let out' := flattenCompoundStmt targetState out.stateCnt false rest
      ⟨out'.stateCnt, out.text ++ out'.text⟩
    else
      let (if1, stateCnt) := if inState then ([], stateCnt) else ([.test stateCnt], stateCnt + 1)
      let (found, jumps) := doRewrite s targetState
      let out := flattenCompoundStmt targetState stateCnt (!found) rest
      ⟨out.stateCnt, if1 ++ jumps ++ out.text⟩
termination_by (sizeOf children, 0)
end

/-! ## What is written -/

def tested : Piece → Option ℕ
  | .test n => some n
  | _ => none

/-- The text tests the states from `a` to before `b`, one after the other, assigns states from `lo`
to `hi`, and its assertions hold. -/
structure Emits (lo hi a b : ℕ) (text : List Piece) : Prop where
  le : a ≤ b
  tests : text.filterMap tested = List.range' a (b - a)
  jumps : ∀ n, .jump n ∈ text → lo ≤ n ∧ n ≤ hi
  checks : ∀ m n, .check m n ∈ text → m = n

section
variable {lo hi a b c : ℕ} {text text' : List Piece}

theorem Emits.append (h : Emits lo hi a b text) (h' : Emits lo hi b c text') :
    Emits lo hi a c (text ++ text') := by
  have hab := h.le
  have hbc := h'.le
  refine ⟨hab.trans hbc, ?_, fun n hn => ?_, fun m n hmn => ?_⟩
  · rw [List.filterMap_append, h.tests, h'.tests, show b = a + 1 * (b - a) by omega,
      show a + 1 * (b - a) - a = b - a by omega, List.range'_append]
    congr 1
    omega
  · exact (List.mem_append.1 hn).elim (h.jumps n) (h'.jumps n)
  · exact (List.mem_append.1 hmn).elim (h.checks m n) (h'.checks m n)

theorem Emits.nil : Emits lo hi a a [] :=
  ⟨le_rfl, by rw [Nat.sub_self]; rfl, nofun, nofun⟩

theorem Emits.test : Emits lo hi a (a + 1) [.test a] :=
  ⟨Nat.le_succ a, by rw [Nat.add_sub_cancel_left]; rfl, nofun, nofun⟩

theorem Emits.jump {n : ℕ} (hlo : lo ≤ n) (hhi : n ≤ hi) : Emits lo hi a a [.jump n] := by
  refine ⟨le_rfl, by rw [Nat.sub_self]; rfl, fun k hk => ?_, nofun⟩
  cases List.mem_singleton.1 hk
  exact ⟨hlo, hhi⟩

theorem Emits.check {n : ℕ} : Emits lo hi a a [.check n n] := by
  refine ⟨le_rfl, by rw [Nat.sub_self]; rfl, nofun, fun m k hmk => ?_⟩
  cases List.mem_singleton.1 hmk
  rfl

theorem Emits.mono {lo' hi' : ℕ} (h : Emits lo hi a b text) (hlo : lo' ≤ lo) (hhi : hi ≤ hi') :
    Emits lo' hi' a b text :=
  { h with jumps := fun n hn => ⟨hlo.trans (h.jumps n hn).1, (h.jumps n hn).2.trans hhi⟩ }

end

/-! ## The traversal -/

mutual
theorem found_traverseStmt (T : ℕ) (f : Bool) : (s : CStmt) →
    (traverseStmt T f s).1 = (f || (traverseStmt 0 false s).1)
  | .breakStmt | .continueStmt => by simp [traverseStmt]
  | .attributed flatten sub => by
    cases flatten with
    | true => simp [traverseStmt]
    | false => simpa [traverseStmt] using found_traverseStmt T f sub
  | .loop _ body => found_traverseStmt T f body
  | .other children => found_traverseChildren T f children
  | .compound children => found_traverseCompoundStmt T f children

theorem found_traverseChildren (T : ℕ) (f : Bool) : (children : CStmts) →
    (traverseChildren T f children).1 = (f || (traverseChildren 0 false children).1)
  | .nil => (Bool.or_false f).symm
  | .cons s rest => by
    simp only [traverseChildren]
    rw [found_traverseChildren T, found_traverseStmt T, found_traverseChildren 0
      (traverseStmt 0 false s).1, Bool.or_assoc]

theorem found_traverseCompoundStmt (T : ℕ) (f : Bool) : (children : CStmts) →
    (traverseCompoundStmt T f children).1 = (f || (traverseCompoundStmt 0 false children).1)
  | .nil => (Bool.or_false f).symm
  | .cons s rest => by
    simp only [traverseCompoundStmt]
    rw [found_traverseCompoundStmt T, found_traverseStmt T,
      found_traverseCompoundStmt 0 (false || (traverseStmt 0 false s).1)]
    simp only [Bool.false_or, Bool.or_assoc]
end

/-- The state that is counted as closed is closed. -/
theorem found_doRewrite (s : CStmt) (T : ℕ) : (doRewrite s T).1 = needsRewrite s := by
  rw [doRewrite, found_traverseStmt, Bool.false_or]
  rfl

mutual
theorem emits_traverseStmt {lo hi a T : ℕ} (hlo : lo ≤ T - 1) (hhi : T ≤ hi) (f : Bool) :
    (s : CStmt) → Emits lo hi a a (traverseStmt T f s).2
  | .breakStmt => by
    rw [traverseStmt]
    split_ifs
    · exact .jump (by omega) hhi
    · exact .nil
  | .continueStmt => by
    rw [traverseStmt]
    split_ifs
    · exact .jump hlo (by omega)
    · exact .nil
  | .attributed flatten sub => by
    rw [traverseStmt]
    split_ifs
    · exact .nil
    · exact emits_traverseStmt hlo hhi f sub
  | .loop _ body => emits_traverseStmt hlo hhi f body
  | .other children => emits_traverseChildren hlo hhi f children
  | .compound children => emits_traverseCompoundStmt hlo hhi f children

theorem emits_traverseChildren {lo hi a T : ℕ} (hlo : lo ≤ T - 1) (hhi : T ≤ hi) (f : Bool) :
    (children : CStmts) → Emits lo hi a a (traverseChildren T f children).2
  | .nil => .nil
  | .cons s rest => (emits_traverseStmt hlo hhi f s).append (emits_traverseChildren hlo hhi _ rest)

theorem emits_traverseCompoundStmt {lo hi a T : ℕ} (hlo : lo ≤ T - 1) (hhi : T ≤ hi) (f : Bool) :
    (children : CStmts) → Emits lo hi a a (traverseCompoundStmt T f children).2
  | .nil => .nil
  | .cons s rest =>
    (emits_traverseStmt hlo hhi false s).append (emits_traverseCompoundStmt hlo hhi _ rest)
end

/-! ## Counts and counter -/

theorem countStates_of_plain {s : CStmt} (hloop : isLoopingEntity s = false)
    (hcompound : isCompound s = false) : countStates s = 1 := by
  cases s with
  | loop => exact nomatch hloop
  | compound => exact nomatch hcompound
  | attributed flatten sub =>
    rw [isLoopingEntity] at hloop
    rw [countStates, hloop, if_neg Bool.false_ne_true]
  | other | breakStmt | continueStmt => rfl

section
variable (targetState stateCnt : ℕ) (st2 st3 : List Piece) {s : CStmt}

theorem flattenBody_of_looping (h : isLoopingEntity s = true) :
    flattenBody targetState st2 st3 stateCnt s =
      ⟨(flattenLoop stateCnt s).stateCnt + 1, (flattenLoop stateCnt s).text ++
        .check (flattenLoop stateCnt s).stateCnt targetState :: st3⟩ := by
  cases s with
  | compound => exact nomatch h
  | loop | attributed | other | breakStmt | continueStmt => rw [flattenBody.eq_def]; exact if_pos h

theorem flattenBody_of_plain (hloop : isLoopingEntity s = false) (hcompound : isCompound s =
    false) : flattenBody targetState st2 st3 stateCnt s =
      ⟨stateCnt + 1 + 1, st2 ++ (doRewrite s targetState).2 ++ st3⟩ := by
  cases s with
  | compound => exact nomatch hcompound
  | loop => exact nomatch hloop
  | attributed | other | breakStmt | continueStmt =>
    rw [flattenBody.eq_def]
    exact if_neg (Bool.eq_false_iff.1 hloop)

variable (inState : Bool) (rest : CStmts)

theorem flattenCompoundStmt_of_looping (h : isLoopingEntity s = true) :
    flattenCompoundStmt targetState stateCnt inState (.cons s rest) =
      let out := flattenCompoundStmt targetState (flattenLoop stateCnt s).stateCnt false rest
      ⟨out.stateCnt, (flattenLoop stateCnt s).text ++ out.text⟩ := by
  cases s with
  | compound => exact nomatch h
  | loop | attributed | other | breakStmt | continueStmt =>
    rw [flattenCompoundStmt.eq_def]
    exact if_pos h

theorem flattenCompoundStmt_of_plain (hloop : isLoopingEntity s = false)
    (hcompound : isCompound s = false) :
    flattenCompoundStmt targetState stateCnt inState (.cons s rest) =
      let if1 := if inState then ([], stateCnt) else ([.test stateCnt], stateCnt + 1)
      let out := flattenCompoundStmt targetState if1.2 (!needsRewrite s) rest
      ⟨out.stateCnt, if1.1 ++ (doRewrite s targetState).2 ++ out.text⟩ := by
  rw [← found_doRewrite s targetState]
  cases s with
  | compound => exact nomatch hcompound
  | loop => exact nomatch hloop
  | attributed | other | breakStmt | continueStmt =>
    rw [flattenCompoundStmt.eq_def]
    exact if_neg (Bool.eq_false_iff.1 hloop)

end

/-- An output that moves the counter over a number of states and tests them. -/
def Output.Counts (lo hi stateCnt count : ℕ) (out : Output) : Prop :=
  out.stateCnt = stateCnt + count ∧ Emits lo hi stateCnt (stateCnt + count) out.text

theorem Output.Counts.append {lo hi stateCnt count count' : ℕ} {out out' : Output}
    (h : out.Counts lo hi stateCnt count) (h' : out'.Counts lo hi out.stateCnt count') :
    Output.Counts lo hi stateCnt (count + count') ⟨out'.stateCnt, out.text ++ out'.text⟩ := by
  obtain ⟨hcnt, hemits⟩ := h
  obtain ⟨hcnt', hemits'⟩ := h'
  rw [hcnt, Nat.add_assoc] at hcnt' hemits'
  exact ⟨hcnt', hemits.append hemits'⟩

mutual
theorem counts_flattenLoop (stateCnt : ℕ) : (s : CStmt) → isLoopingEntity s = true →
    (flattenLoop stateCnt s).Counts stateCnt (stateCnt + countStates s) stateCnt (countStates s)
  | .loop kind body, _ => by
    have hcount : countStates (.loop kind body) = 2 + countStates body := rfl
    have htarget : stateCnt + (2 + countStates body) - 1 =
      stateCnt + 1 + countStates body := by omega
    rw [flattenLoop.eq_def, hcount]
    simp only [hcount, htarget]
    have hexit : Emits stateCnt (stateCnt + (2 + countStates body)) (stateCnt + 1) (stateCnt + 1)
        (exitJump kind (stateCnt + (2 + countStates body))) := by
      cases kind with
      | for_ | while_ => exact .jump (by omega) le_rfl
      | do_ => exact .nil
    have hback : Emits stateCnt (stateCnt + (2 + countStates body))
      (stateCnt + 1 + countStates body + 1)
        (stateCnt + 1 + countStates body + 1) [.jump (stateCnt + 1)] := .jump (by omega) (by omega)
    obtain ⟨hcnt, hemits⟩ :=
      counts_flattenBody body rfl (Nat.lt_succ_self stateCnt) (by omega) .test
        (Emits.test.append hback)
    refine ⟨hcnt.trans (by omega), ?_⟩
    rw [show stateCnt + (2 + countStates body) = stateCnt + 1 + (countStates body + 1) by
      omega] at *
    exact (Emits.test.append hexit).append hemits
  | .attributed flatten sub, h => by
    have hsub : isLoopingEntity sub = true := (Bool.and_eq_true_iff.1 h).1
    rw [isLoopingEntity] at h
    rw [flattenLoop.eq_def, countStates, if_pos h]
    exact counts_flattenLoop stateCnt sub hsub
termination_by s => (sizeOf s, 0)

theorem counts_flattenBody {lo hi targetState stateCnt : ℕ} {st2 st3 : List Piece} (s : CStmt)
    (htarget : targetState = stateCnt + countStates s) (hlo : lo < stateCnt)
    (hhi : targetState < hi) (hst2 : Emits lo hi stateCnt (stateCnt + 1) st2)
    (hst3 : Emits lo hi targetState (targetState + 1) st3) :
    (flattenBody targetState st2 st3 stateCnt s).Counts lo hi stateCnt (countStates s + 1) := by
  have hnested (out : Output) (h : out.Counts lo hi stateCnt (countStates s)) :
      Output.Counts lo hi stateCnt (countStates s + 1)
        ⟨out.stateCnt + 1, out.text ++ .check out.stateCnt targetState :: st3⟩ := by
    obtain ⟨hcnt, hemits⟩ := h
    rw [← htarget] at hcnt hemits
    refine ⟨by dsimp only; omega, ?_⟩
    rw [hcnt, ← Nat.add_assoc, ← htarget]
    exact hemits.append (Emits.check.append hst3)
  by_cases hcompound : isCompound s = true
  · cases s with
    | compound children =>
      rw [flattenBody.eq_def]
      exact hnested _ (counts_flattenCompoundStmt (by omega) hhi.le false children hlo.le
        (by rw [countStates] at htarget; omega))
    | loop | attributed | other | breakStmt | continueStmt => exact nomatch hcompound
  rw [Bool.not_eq_true] at hcompound
  cases hloop : isLoopingEntity s with
  | true =>
    rw [flattenBody_of_looping _ _ _ _ hloop]
    obtain ⟨hcnt, hemits⟩ := counts_flattenLoop stateCnt s hloop
    exact hnested _ ⟨hcnt, hemits.mono hlo.le (by omega)⟩
  | false =>
    have hone := countStates_of_plain hloop hcompound
    rw [hone] at htarget
    rw [flattenBody_of_plain _ _ _ _ hloop hcompound, hone]
    subst htarget
    exact ⟨rfl, (hst2.append (emits_traverseStmt (by omega) hhi.le false s)).append hst3⟩
termination_by (sizeOf s, 1)

theorem counts_flattenCompoundStmt {lo hi targetState stateCnt : ℕ} (hlo : lo ≤ targetState - 1)
    (hhi : targetState ≤ hi) (inState : Bool) (children : CStmts) (hstart : lo ≤ stateCnt)
    (hend : stateCnt + countChildren inState children ≤ hi) :
    (flattenCompoundStmt targetState stateCnt inState children).Counts lo hi stateCnt
      (countChildren inState children) := by
  match children with
  | .nil =>
    rw [flattenCompoundStmt.eq_def]
    exact ⟨rfl, .nil⟩
  | .cons s rest =>
    have hrest (n : ℕ) (b : Bool) (hn : lo ≤ n) (hle : n + countChildren b rest ≤ hi) :
        (flattenCompoundStmt targetState n b rest).Counts lo hi n (countChildren b rest) :=
      counts_flattenCompoundStmt hlo hhi b rest hn hle
    rw [countChildren] at hend ⊢
    by_cases hcompound : isCompound s = true
    · cases s with
      | compound inner =>
        rw [hcompound, Bool.or_true, if_pos rfl, countStates] at hend ⊢
        rw [flattenCompoundStmt.eq_def]
        have hinner := counts_flattenCompoundStmt hlo hhi false inner hstart (by omega)
        have hcnt := hinner.1
        exact hinner.append (hrest _ false (by omega) (by omega))
      | loop | attributed | other | breakStmt | continueStmt => exact nomatch hcompound
    rw [Bool.not_eq_true] at hcompound
    cases hloop : isLoopingEntity s with
    | true =>
      rw [hloop, Bool.true_or, if_pos rfl] at hend
      rw [Bool.true_or, if_pos rfl, flattenCompoundStmt_of_looping _ _ _ _ hloop]
      obtain ⟨hcnt, hemits⟩ := counts_flattenLoop stateCnt s hloop
      have hs : (flattenLoop stateCnt s).Counts lo hi stateCnt (countStates s) :=
        ⟨hcnt, hemits.mono hstart (by omega)⟩
      exact hs.append (hrest _ false (by omega) (by omega))
    | false =>
      rw [hloop, hcompound, Bool.or_false, if_neg Bool.false_ne_true] at hend
      rw [hcompound, Bool.or_false, if_neg Bool.false_ne_true,
        flattenCompoundStmt_of_plain _ _ _ _ hloop hcompound]
      have hjumps (n : ℕ) : Emits lo hi n n (doRewrite s targetState).2 :=
        emits_traverseStmt hlo hhi false s
      cases inState with
      | true =>
        rw [if_pos rfl, Nat.zero_add] at hend
        obtain ⟨hcnt, hemits⟩ := hrest stateCnt (!needsRewrite s) hstart (by omega)
        rw [if_pos rfl, Nat.zero_add]
        exact ⟨hcnt, (Emits.nil.append (hjumps stateCnt)).append hemits⟩
      | false =>
        rw [if_neg Bool.false_ne_true] at hend
        obtain ⟨hcnt, hemits⟩ := hrest (stateCnt + 1) (!needsRewrite s) (by omega) (by omega)
        rw [if_neg Bool.false_ne_true]
        rw [Nat.add_assoc] at hcnt hemits
        exact ⟨hcnt, (Emits.test.append (hjumps (stateCnt + 1))).append hemits⟩
termination_by (sizeOf children, 0)
end

/-- The counter ends where the count says, all assertions hold, the states in between and no others
are tested, each one once, and only they and the one after them are assigned. -/
theorem flattenLoop_countStates {s : CStmt} (hs : isLoopingEntity s = true) (stateCnt : ℕ) :
    (flattenLoop stateCnt s).stateCnt = stateCnt + countStates s ∧
    (∀ m n, .check m n ∈ (flattenLoop stateCnt s).text → m = n) ∧
    (∀ n, ((flattenLoop stateCnt s).text.filterMap tested).count n =
      if stateCnt ≤ n ∧ n < stateCnt + countStates s then 1 else 0) ∧
    ∀ n, .jump n ∈ (flattenLoop stateCnt s).text → stateCnt ≤ n ∧ n ≤ stateCnt + countStates s := by
  obtain ⟨hcnt, hemits⟩ := counts_flattenLoop stateCnt s hs
  refine ⟨hcnt, hemits.checks, fun n => ?_, hemits.jumps⟩
  rw [hemits.tests, Nat.add_sub_cancel_left]
  split_ifs with hn
  · exact List.count_eq_one_of_mem List.nodup_range' (List.mem_range'_1.2 hn)
  · exact List.count_eq_zero.2 fun hmem => hn (List.mem_range'_1.1 hmem)

/-- `while (...) { ...; if (...) break; ... }` -/
theorem flattenLoop_countStates_break :
    isLoopingEntity
      (.loop .while_ (.compound (.cons (.other .nil) (.cons (.other (.cons .breakStmt .nil))
      (.cons (.other .nil) .nil))))) = true ∧
    (flattenLoop 0 (.loop .while_ (.compound (.cons (.other .nil)
      (.cons (.other (.cons .breakStmt .nil)) (.cons (.other .nil) .nil)))))).stateCnt = 4 :=
  ⟨rfl, (flattenLoop_countStates rfl 0).1⟩

/-! ## The states of the machine -/

open Structured

variable {S : Type}

def headKind : LoopHead S → LoopKind
  | .while_ _ => .while_
  | .do_ _ => .do_
  | .for_ .. => .for_

mutual
/-- A statement of the machine model as the parser has it. -/
def source : Stmt S → CStmt
  | .expr _ => .other .nil
  | .ifThen _ s => .other (.cons (source s) .nil)
  | .ifElse _ s t => .other (.cons (source s) (.cons (source t) .nil))
  | .block b => .compound (sources b)
  | .loop head s => .loop (headKind head) (source s)
  | .brk => .breakStmt
  | .cont => .continueStmt

def sources : Block S → CStmts
  | .nil => .nil
  | .cons s b => .cons (source s) (sources b)
end

mutual
theorem needsRewrite_source : (s : Stmt S) → needsRewrite (source s) = Flatten.needsRewrite s
  | .expr _ | .brk | .cont => rfl
  | .ifThen _ s => needsRewrite_source s
  | .ifElse _ s t => by
    have hs := needsRewrite_source s
    have ht := needsRewrite_source t
    rw [needsRewrite, doRewrite] at hs ht ⊢
    rw [source, Flatten.needsRewrite, traverseStmt]
    simp only [traverseChildren]
    rw [found_traverseStmt, hs, ht]
  | .block b => needsRewrite_sources b
  | .loop _ s => needsRewrite_source s

theorem needsRewrite_sources : (b : Block S) →
    needsRewrite (.compound (sources b)) = needsRewriteBlock b
  | .nil => rfl
  | .cons s b => by
    have hs := needsRewrite_source s
    have hb := needsRewrite_sources b
    rw [needsRewrite, doRewrite, traverseStmt] at hb
    rw [needsRewrite, doRewrite] at hs ⊢
    rw [sources, needsRewriteBlock, traverseStmt]
    simp only [traverseCompoundStmt]
    rw [found_traverseCompoundStmt, hs, hb, Bool.false_or]
end

theorem isLoopOrCompound_source (s : Stmt S) :
    (isLoopingEntity (source s) || isCompound (source s)) = isLoopOrCompound s := by
  cases s <;> rfl

mutual
theorem countStates_source : (s : Stmt S) → countStates (source s) = Flatten.countStates s
  | .expr _ | .brk | .cont | .ifThen _ _ | .ifElse _ _ _ => rfl
  | .block b => countChildren_sources false b
  | .loop _ s => congrArg (2 + ·) (countStates_source s)

theorem countChildren_sources (inState : Bool) : (b : Block S) →
    countChildren inState (sources b) = countCompound inState b
  | .nil => rfl
  | .cons s b => by
    rw [sources, countChildren, countCompound, isLoopOrCompound_source, countStates_source s,
      needsRewrite_source, countChildren_sources false b, countChildren_sources _ b]
end

mutual
theorem length_flattenBody {T : ℕ} : (s : Stmt S) → {k : ℕ} → {codes : List (Block (Config S))} →
    Flatten.flattenBody T k s = some codes → codes.length = Flatten.countStates s
  | .loop _ s, k, codes, h => by
    rw [Flatten.flattenBody, Option.ite_none_right_eq_some, Option.bind_eq_bind,
      Option.bind_eq_some_iff] at h
    obtain ⟨-, body, hbody, hcodes⟩ := h
    rw [← Option.some.inj hcodes, List.length_cons, List.length_append, length_flattenBody s hbody,
      Flatten.countStates, List.length_singleton]
    omega
  | .block b, k, codes, h => by
    have hlen := length_flattenCompoundStmt b h
    rwa [closeState, List.length_nil, Nat.zero_add] at hlen
  | .expr _, k, codes, h | .ifThen _ _, k, codes, h | .ifElse _ _ _, k, codes, h | .brk, k, codes, h
  | .cont, k, codes, h => by
    simp only [Flatten.flattenBody, Option.bind_eq_bind, Option.bind_eq_some_iff] at h
    obtain ⟨code, -, hcodes⟩ := h
    rw [← Option.some.inj hcodes]
    rfl

theorem length_flattenCompoundStmt {T : ℕ} : (b : Block S) → {k : ℕ} →
    {inState : Option (Block (Config S))} → {codes : List (Block (Config S))} →
    Flatten.flattenCompoundStmt T k inState b = some codes →
    codes.length = (closeState inState).length + countCompound inState.isSome b
  | .nil, k, inState, codes, h => by
    rw [← Option.some.inj h]
    rfl
  | .cons s b, k, inState, codes, h => by
    rw [Flatten.flattenCompoundStmt] at h
    rw [countCompound]
    by_cases hflat : isLoopOrCompound s = true
    · simp only [if_pos hflat, Option.bind_eq_bind, Option.bind_eq_some_iff] at h
      obtain ⟨states, hstates, rest, hrest, hcodes⟩ := h
      rw [if_pos hflat, ← Option.some.inj hcodes, List.length_append, List.length_append,
        length_flattenBody s hstates, length_flattenCompoundStmt b hrest]
      exact (Nat.add_assoc ..).trans (congrArg _ (congrArg _ (Nat.zero_add _)))
    · rw [if_neg hflat] at h
      obtain ⟨code, -, h⟩ := Option.bind_eq_some_iff.1 h
      rw [if_neg hflat, length_closeState]
      cases hbreak : Flatten.needsRewrite s with
      | true =>
        rw [hbreak, if_pos rfl] at h
        obtain ⟨rest, hrest, hcodes⟩ := Option.bind_eq_some_iff.1 h
        rw [← Option.some.inj hcodes, List.length_cons, length_flattenCompoundStmt b hrest]
        exact congrArg (· + 1) (Nat.zero_add _)
      | false =>
        rw [hbreak, if_neg Bool.false_ne_true] at h
        rw [length_flattenCompoundStmt b h]
        exact Nat.add_comm 1 _
end

end Pequin.Flatten.Visitor
