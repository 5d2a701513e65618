import Pequin.Ram.Consistency

/-!
# Fast RAM lines and the inputs of the permutation network

A `RAMGET_FAST` or `RAMPUT_FAST` line of the spec generates no constraint where it stands. The
backend collects these lines, numbers them, and computes the tuples that go into the permutation
network: a conditional store gets a type of its own, which is `STORE_OP` if the store is executed
and `NO_OP` otherwise.
-/

namespace Pequin

open MemoryTrace (Access)

inductive RamLine where
  /-- `RAMGET_FAST ADDR addr VALUE value` -/
  | get (addr : Arg Name) (value : Name)
  /-- `RAMPUT_FAST ADDR addr VALUE inValue CONDITION condition branch value` -/
  | put (addr inValue condition : Arg Name) (branch : Bool) (value : Name)

namespace RamLine

def addr : RamLine → Arg Name
  | .get addr _ | .put addr _ _ _ _ => addr

/-- The variable a line assigns: the value read by a load, and a copy of the stored value. -/
def value : RamLine → Name
  | .get _ value | .put _ _ _ _ value => value

def inputs : RamLine → List Name
  | .get addr _ => addr.vars
  | .put addr _ condition _ _ => addr.vars ++ condition.vars

/-- The variables that give the value to store. -/
def inValueVars : RamLine → List Name
  | .get _ _ => []
  | .put _ inValue _ _ _ => inValue.vars

def operands (l : RamLine) : List Name := l.inputs ++ l.inValueVars

theorem forall_put {addr inValue condition : Arg Name} {branch : Bool} {value : Name}
    {P : Arg Name → Prop}
    (h : ∀ a : Arg Name, a.vars ⊆ (put addr inValue condition branch value).operands → P a) :
    P addr ∧ P inValue ∧ P condition := by
  refine ⟨h _ ?_, h _ ?_, h _ ?_⟩ <;> simp [operands, inputs, inValueVars]

end RamLine

/-- Every line assigns a variable of the spec that is not assigned otherwise, after the variables it
reads are assigned. -/
structure RamSsa (ls : List RamLine) : Prop where
  spec : ∀ l ∈ ls, ∀ x ∈ l.value :: l.operands, ∃ s, x = .spec s
  self : ∀ l ∈ ls, l.value ∉ l.operands
  later : ls.Pairwise fun l l' => l'.value ≠ l.value ∧ l'.value ∉ l.operands

variable {ls : List RamLine}

theorem RamSsa.tail {l : RamLine} (h : RamSsa (l :: ls)) : RamSsa ls where
  spec l' hl' := h.spec l' (List.mem_cons_of_mem l hl')
  self l' hl' := h.self l' (List.mem_cons_of_mem l hl')
  later := (List.pairwise_cons.mp h.later).2

/-- What the first line assigns is not assigned again. -/
theorem RamSsa.value_ne {l : RamLine} (h : RamSsa (l :: ls)) : ∀ l' ∈ ls, l'.value ≠ l.value :=
  fun l' hl' => ((List.pairwise_cons.mp h.later).1 l' hl').1

/-- What the first line reads is not assigned any more. -/
theorem RamSsa.value_ne_operand {l : RamLine} (h : RamSsa (l :: ls)) {x : Name}
    (hx : x ∈ l.operands) : ∀ l' ∈ l :: ls, l'.value ≠ x := by
  intro l' hl' heq
  rcases List.mem_cons.mp hl' with rfl | hl'
  · exact h.self _ List.mem_cons_self (heq ▸ hx)
  · exact ((List.pairwise_cons.mp h.later).1 l' hl').2 (heq ▸ hx)

/-- A store whose type is computed: its condition does not already say that it is executed. -/
def RamLine.Conditional : RamLine → Prop
  | .get _ _ => False
  | .put _ _ condition branch _ =>
    ¬ (condition = .const 1 ∧ branch = true) ∧ ¬ (condition = .const 0 ∧ branch = false)

/-- A store is executed if its condition agrees with the branch in which it stands. -/
def executed {R : Type} [DecidableEq R] [Zero R] (condition : R) (branch : Bool) : Bool :=
  decide (condition ≠ 0) == branch

/-! ## The backend -/

/-- The seven elements the backend collects of a memory operation. -/
structure MemInput where
  addr : Arg Name
  timestamp : ℕ
  type : ℤ
  value : Arg Name
  condition : Arg Name
  branch : Bool
  inValue : Arg Name

def RamLine.memInput (timestamp : ℕ) : RamLine → MemInput
  | .get addr value => ⟨addr, timestamp, loadOp, .var value, .const 1, true, .var value⟩
  | .put addr inValue condition branch value =>
    ⟨addr, timestamp, storeOp, .var value, condition, branch, inValue⟩

/-- The operations of a spec, from `mem_timestamp` on. -/
def generateMemoryConsistencyInSpec (memTimestamp : ℕ) : List RamLine → List MemInput
  | [] => []
  | l :: ls => l.memInput memTimestamp :: generateMemoryConsistencyInSpec (memTimestamp + 1) ls

/-- The line `( a ) * ( b ) + ( c - t )`. -/
def polyLine (a b c : Poly Name) : Arg Name → SpecLine
  | .var t => .poly a b c t
  | .const k => .polyConst a b c k

/-- `%s` or `1 - %s`, the condition of a branch. -/
def branchGuard (condition : Arg Name) (branch : Bool) : Sum Name :=
  if branch then condition.sum else (Arg.const 1).sum.sub condition

/-- The lines for one operation, and its tuple. -/
def MemInput.actual (m : MemInput) : List SpecLine × MemOp (Arg Name) :=
  let plain : MemOp (Arg Name) := ⟨m.addr, .const m.timestamp, .const m.type, m.value⟩
  if m.type = loadOp ∨ m.type = noOp then ([], plain)
  else if m.condition = .const 1 ∧ m.branch = true then
    ([polyLine (some (Arg.const 1).sum) (some ((Arg.const 1).sum.sub (.const 1)))
      (some m.value.sum) m.inValue], plain)
  else if m.condition = .const 0 ∧ m.branch = false then
    ([polyLine (some (Arg.const 0).sum) (some ((Arg.const 0).sum.sub (.const 0)))
      (some m.value.sum) m.inValue], plain)
  else
    let actualType := Name.inputType m.timestamp
    let guard := branchGuard m.condition m.branch
    ([.poly (some guard) (some ((Arg.const m.type).sum.sub (.const noOp)))
        (some (Arg.const noOp).sum) actualType,
      .polyConst (some guard) (some (m.value.sum.sub m.inValue)) (some (Arg.const 0).sum) 0],
      { plain with type := .var actualType })

theorem actual_get (addr : Arg Name) (value : Name) (t : ℕ) :
    ((RamLine.get addr value).memInput t).actual =
      ([], ⟨addr, .const t, .const loadOp, .var value⟩) := rfl

/-- The three ways in which a store goes into the network. -/
theorem MemInput.actual_of_store {m : MemInput} (htype : m.type = storeOp) :
    (m.condition = .const 1 ∧ m.branch = true ∧
      m.actual = ([polyLine (some (Arg.const 1).sum) (some ((Arg.const 1).sum.sub (.const 1)))
        (some m.value.sum) m.inValue], ⟨m.addr, .const m.timestamp, .const m.type, m.value⟩)) ∨
    (m.condition = .const 0 ∧ m.branch = false ∧
      m.actual = ([polyLine (some (Arg.const 0).sum) (some ((Arg.const 0).sum.sub (.const 0)))
        (some m.value.sum) m.inValue], ⟨m.addr, .const m.timestamp, .const m.type, m.value⟩)) ∨
    (¬ (m.condition = .const 1 ∧ m.branch = true) ∧ ¬ (m.condition = .const 0 ∧ m.branch = false) ∧
      m.actual = ([.poly (some (branchGuard m.condition m.branch))
          (some ((Arg.const m.type).sum.sub (.const noOp))) (some (Arg.const noOp).sum)
          (.inputType m.timestamp),
        .polyConst (some (branchGuard m.condition m.branch)) (some (m.value.sum.sub m.inValue))
          (some (Arg.const 0).sum) 0],
        ⟨m.addr, .const m.timestamp, .var (.inputType m.timestamp), m.value⟩)) := by
  have hstore : ¬ (m.type = loadOp ∨ m.type = noOp) := by
    rw [htype]
    decide
  simp only [actual, if_neg hstore]
  by_cases h1 : m.condition = .const 1 ∧ m.branch = true
  · exact .inl ⟨h1.1, h1.2, if_pos h1⟩
  · rw [if_neg h1]
    by_cases h0 : m.condition = .const 0 ∧ m.branch = false
    · exact .inr (.inl ⟨h0.1, h0.2, if_pos h0⟩)
    · exact .inr (.inr ⟨h1, h0, if_neg h0⟩)

def generateComputationWaksmanNetworkActualInput (input : List MemInput) :
    List SpecLine × List (MemOp (Arg Name)) :=
  (input.flatMap fun m => m.actual.1, input.map fun m => m.actual.2)

def actualInputLines (memTimestamp : ℕ) (ls : List RamLine) : List SpecLine :=
  (generateComputationWaksmanNetworkActualInput
    (generateMemoryConsistencyInSpec memTimestamp ls)).1

/-- The tuples that go into the network. -/
def actualInputs (memTimestamp : ℕ) (ls : List RamLine) : List (MemOp (Arg Name)) :=
  (generateComputationWaksmanNetworkActualInput
    (generateMemoryConsistencyInSpec memTimestamp ls)).2

section
variable (t : ℕ) (l : RamLine) (ls : List RamLine)

@[simp] theorem actualInputLines_nil : actualInputLines t [] = [] := rfl

@[simp] theorem actualInputLines_cons :
    actualInputLines t (l :: ls) = (l.memInput t).actual.1 ++ actualInputLines (t + 1) ls := rfl

@[simp] theorem actualInputs_nil : actualInputs t [] = [] := rfl

@[simp] theorem actualInputs_cons :
    actualInputs t (l :: ls) = (l.memInput t).actual.2 :: actualInputs (t + 1) ls := rfl

end

/-! ## What the lines for the actual inputs say -/

/-- The type an operation really has. -/
def RamLine.actualType {R : Type} [DecidableEq R] [Ring R] (z : Name → R) : RamLine → ℤ
  | .get _ _ => loadOp
  | .put _ _ condition branch _ => if executed (condition.eval z) branch then storeOp else noOp

/-- The tuple of an operation, once its type is computed. -/
def RamLine.tuple {R : Type} [DecidableEq R] [Ring R] (z : Name → R) (t : ℕ) (l : RamLine) :
    MemOp R :=
  ⟨l.addr.eval z, t, l.actualType z, z l.value⟩

/-- The conditions of the stores are `0` or `1`. -/
def RamLine.BoolCondition {R : Type} [Zero R] [One R] [IntCast R] (z : Name → R) :
    RamLine → Prop
  | .get _ _ => True
  | .put _ _ condition _ _ => condition.eval z = 0 ∨ condition.eval z = 1

/-- An executed store stores its value. -/
def RamLine.Stores {R : Type} [DecidableEq R] [Zero R] [IntCast R] (z : Name → R) : RamLine → Prop
  | .get _ _ => True
  | .put _ inValue condition branch value =>
    executed (condition.eval z) branch = true → z value = inValue.eval z

section
variable {R : Type} [CommRing R] {d : Decls} {z : Name → R}

@[simp] theorem satisfies_polyLine (a b c : Poly Name) (t : Arg Name) :
    Satisfies z (SpecLine.toBasicConstraints d (polyLine a b c t)) ↔
      a.eval z * b.eval z + (c.eval z - t.eval z) = 0 := by
  cases t <;> simp [polyLine, SpecLine.toBasicConstraints]

variable [DecidableEq R]

theorem eval_branchGuard [Nontrivial R] {condition : Arg Name} (branch : Bool)
    (hbool : condition.eval z = 0 ∨ condition.eval z = 1) :
    (branchGuard condition branch).eval z =
      if executed (condition.eval z) branch then 1 else 0 := by
  unfold branchGuard
  rcases hbool with h | h <;> cases branch <;> simp [h, executed]

variable {t : ℕ}

/-- The constraints for the actual inputs of one operation: it goes into the network with the type
it really has, and an executed store stores its value. -/
theorem satisfies_actual [Nontrivial R] {l : RamLine} (hbool : l.BoolCondition z) :
    Satisfies z (toBasicConstraintsLines d (l.memInput t).actual.1) ↔
      (l.memInput t).actual.2.map (Arg.eval z) = l.tuple z t ∧ l.Stores z := by
  cases l with
  | get addr value =>
    simp [actual_get, toBasicConstraintsLines, RamLine.tuple, MemOp.map, RamLine.Stores,
      RamLine.actualType, RamLine.addr, RamLine.value]
  | put addr inValue condition branch value =>
    simp only [RamLine.tuple, RamLine.Stores, RamLine.actualType, RamLine.addr, RamLine.value]
    have hstore := MemInput.actual_of_store
      (m := (RamLine.put addr inValue condition branch value).memInput t) rfl
    simp only [RamLine.memInput] at hstore ⊢
    rcases hstore with ⟨rfl, rfl, h⟩ | ⟨rfl, rfl, h⟩ | ⟨h1, h0, h⟩
    · simp [h, toBasicConstraintsLines, MemOp.map, executed, sub_eq_zero]
    · simp [h, toBasicConstraintsLines, MemOp.map, executed, sub_eq_zero]
    · have hguard := eval_branchGuard branch hbool
      simp only [h, toBasicConstraintsLines, List.flatMap_cons, List.flatMap_nil, List.append_nil,
        SpecLine.toBasicConstraints, satisfies_append, satisfies_cons, satisfies_nil, and_true,
        Line.eval_mk, Poly.eval_minus, Poly.eval_some, Sum.eval_sum, Sum.eval_sub, Arg.eval_const,
        Arg.eval_var, hguard]
      by_cases hex : executed (condition.eval z) branch = true
      · simp [hex, MemOp.map, storeOp, noOp, sub_eq_zero, eq_comm (a := (1 : R))]
      · simp [hex, MemOp.map, storeOp, noOp, sub_eq_zero, eq_comm (a := (2 : R))]

/-- The tuple of one operation, with its type computed. -/
theorem eval_actual [Nontrivial R] {l : RamLine}
    (htype : l.Conditional → z (.inputType t) = (l.actualType z : ℤ)) :
    (l.memInput t).actual.2.map (Arg.eval z) = l.tuple z t := by
  cases l with
  | get addr value => simp [actual_get, RamLine.tuple, MemOp.map, RamLine.actualType,
      RamLine.addr, RamLine.value]
  | put addr inValue condition branch value =>
    simp only [RamLine.tuple, RamLine.actualType, RamLine.addr, RamLine.value] at htype ⊢
    have hstore := MemInput.actual_of_store
      (m := (RamLine.put addr inValue condition branch value).memInput t) rfl
    simp only [RamLine.memInput] at hstore ⊢
    rcases hstore with ⟨rfl, rfl, h⟩ | ⟨rfl, rfl, h⟩ | ⟨h1, h0, h⟩
    · simp [h, MemOp.map, executed]
    · simp [h, MemOp.map, executed]
    · simp [h, MemOp.map, htype ⟨h1, h0⟩]

/-- The tuples of the operations, once their types are computed. -/
def tuples (z : Name → R) : ℕ → List RamLine → List (MemOp R)
  | _, [] => []
  | t, l :: ls => l.tuple z t :: tuples z (t + 1) ls

theorem length_tuples (t : ℕ) (ls : List RamLine) : (tuples z t ls).length = ls.length := by
  induction ls generalizing t with
  | nil => rfl
  | cons l ls ih => simp [tuples, ih]

variable {ls : List RamLine}

theorem mem_tuples {op : MemOp R} (h : op ∈ tuples z t ls) :
    ∃ l ∈ ls, ∃ k < ls.length, op = l.tuple z (t + k) := by
  induction ls generalizing t with
  | nil => cases h
  | cons l ls ih =>
    rcases List.mem_cons.mp h with rfl | h
    · exact ⟨l, List.mem_cons_self, 0, ls.length.succ_pos, rfl⟩
    · obtain ⟨l', hl', k, hk, rfl⟩ := ih h
      refine ⟨l', List.mem_cons_of_mem l hl', k + 1, Nat.succ_lt_succ hk, ?_⟩
      rw [Nat.add_right_comm, Nat.add_assoc]

theorem satisfies_actualInputLines [Nontrivial R] (hbool : ∀ l ∈ ls, l.BoolCondition z) :
    Satisfies z (toBasicConstraintsLines d (actualInputLines t ls)) ↔
      (actualInputs t ls).map (MemOp.map (Arg.eval z)) = tuples z t ls ∧ ∀ l ∈ ls, l.Stores z := by
  induction ls generalizing t with
  | nil => simp [toBasicConstraintsLines, tuples]
  | cons l ls ih =>
    obtain ⟨hl, hls⟩ := List.forall_mem_cons.mp hbool
    have ih := ih (t := t + 1) hls
    have hhead := satisfies_actual (d := d) (t := t) hl
    simp only [toBasicConstraintsLines] at ih hhead ⊢
    rw [actualInputLines_cons, List.flatMap_append, satisfies_append, hhead, ih,
      actualInputs_cons, List.map_cons, tuples, List.cons.injEq, List.forall_mem_cons]
    tauto

theorem map_actualInputs [Nontrivial R] (htype : ∀ k l, ls[k]? = some l → l.Conditional →
      z (.inputType (t + k)) = (l.actualType z : ℤ)) :
    (actualInputs t ls).map (MemOp.map (Arg.eval z)) = tuples z t ls := by
  induction ls generalizing t with
  | nil => rfl
  | cons l ls ih =>
    have htail : ∀ k l', ls[k]? = some l' → l'.Conditional →
        z (.inputType (t + 1 + k)) = (l'.actualType z : ℤ) := by
      intro k l' hk hcond
      have h := htype (k + 1) l' (by simpa using hk) hcond
      rwa [← Nat.add_assoc, Nat.add_right_comm] at h
    rw [actualInputs_cons, List.map_cons, tuples, ih htail, eval_actual (t := t) (htype 0 l rfl)]

section
variable {z' : Name → R}

theorem RamLine.congr {l : RamLine} (hz : ∀ x ∈ l.value :: l.operands, z' x = z x) :
    (∀ t, l.tuple z' t = l.tuple z t) ∧ (l.Stores z' ↔ l.Stores z) ∧
      (l.BoolCondition z' ↔ l.BoolCondition z) := by
  obtain ⟨hvalue, hops⟩ := List.forall_mem_cons.mp hz
  cases l with
  | get addr value =>
    have haddr : addr.eval z' = addr.eval z := addr.eval_congr fun x hx =>
      hops x (by simp [operands, inputs, hx])
    refine ⟨fun t => ?_, Iff.rfl, Iff.rfl⟩
    have hvalue : z' value = z value := hvalue
    simp only [tuple, RamLine.addr, RamLine.value, actualType, haddr, hvalue]
  | put addr inValue condition branch value =>
    obtain ⟨haddr, hin, hcond⟩ := forall_put (P := fun a => a.eval z' = a.eval z) fun a ha =>
      a.eval_congr fun x hx => hops x (ha hx)
    have hvalue : z' value = z value := hvalue
    refine ⟨fun t => ?_, ?_, ?_⟩
    · simp only [tuple, RamLine.addr, RamLine.value, actualType, haddr, hvalue, hcond]
    · simp only [Stores, hvalue, hin, hcond]
    · simp only [BoolCondition, hcond]

theorem tuples_congr {t : ℕ} {ls : List RamLine}
    (hz : ∀ l ∈ ls, ∀ x ∈ l.value :: l.operands, z' x = z x) : tuples z' t ls = tuples z t ls := by
  induction ls generalizing t with
  | nil => rfl
  | cons l ls ih =>
    obtain ⟨hl, hls⟩ := List.forall_mem_cons.mp hz
    rw [tuples, tuples, ih hls, (RamLine.congr hl).1]

end

/-- An assignment of integers, read in another ring. -/
theorem RamLine.cast [Nontrivial R] {v : Name → ℤ} {l : RamLine}
    (hz : ∀ x ∈ l.value :: l.operands, z x = (v x : R)) (hbool : l.BoolCondition v) :
    (∀ t, l.tuple z t = (l.tuple v t).map Int.cast) ∧ (l.Stores v → l.Stores z) ∧
      l.BoolCondition z := by
  obtain ⟨hvalue, hops⟩ := List.forall_mem_cons.mp hz
  have hop : ∀ a : Arg Name, (∀ x ∈ a.vars, x ∈ l.operands) → a.eval z = ((a.eval v : ℤ) : R) :=
    fun a ha => a.eval_cast fun x hx => hops x (ha x hx)
  cases l with
  | get addr value =>
    have haddr := hop addr fun x hx => by simp [operands, inputs, hx]
    have hvalue : z value = (v value : R) := hvalue
    refine ⟨fun t => ?_, fun _ => trivial, trivial⟩
    simp [tuple, MemOp.map, RamLine.addr, RamLine.value, actualType, haddr, hvalue]
  | put addr inValue condition branch value =>
    have haddr := hop addr fun x hx => by simp [operands, inputs, hx]
    have hin := hop inValue fun x hx => by simp [operands, inValueVars, hx]
    have hcond := hop condition fun x hx => by simp [operands, inputs, hx]
    have hvalue : z value = (v value : R) := hvalue
    have hex : executed (condition.eval z) branch = executed (condition.eval v) branch := by
      rw [hcond]
      rcases hbool with h | h <;> simp [executed, h]
    refine ⟨fun t => ?_, fun hstores hex' => ?_, ?_⟩
    · simp [tuple, MemOp.map, RamLine.addr, RamLine.value, actualType, haddr, hvalue, hex]
    · rw [hex] at hex'
      rw [hvalue, hin, hstores hex']
    · rcases hbool with h | h
      · exact .inl (by rw [hcond, h, Int.cast_zero])
      · exact .inr (by rw [hcond, h, Int.cast_one])

theorem tuples_cast [Nontrivial R] {v : Name → ℤ}
    (hz : ∀ l ∈ ls, ∀ x ∈ l.value :: l.operands, z x = (v x : R))
    (hbool : ∀ l ∈ ls, l.BoolCondition v) :
    tuples z t ls = (tuples v t ls).map (MemOp.map Int.cast) := by
  induction ls generalizing t with
  | nil => rfl
  | cons l ls ih =>
    obtain ⟨hl, hls⟩ := List.forall_mem_cons.mp hz
    obtain ⟨hb, hbs⟩ := List.forall_mem_cons.mp hbool
    rw [tuples, tuples, List.map_cons, ih hls hbs, (RamLine.cast hl hb).1]

end

end Pequin
