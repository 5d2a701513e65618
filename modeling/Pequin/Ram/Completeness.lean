import Pequin.Ram.Soundness

/-!
# The honest prover and the memory constraints

The prover executes the fast RAM lines on a table of its own, then the lines for the actual inputs
of the network, and then, on the sorted operations, the consistency checks. It leaves the target of
an executed store in an else branch alone, so that the target keeps the value `0` it starts with.
The assignment satisfies the constraints if every such store stores `0`.
-/

namespace Pequin

open MemoryTrace (Access Checked Lex Replays)

def RamLine.cmd : RamLine → Cmd
  | .get addr value => .ramget addr (.var value)
  | .put addr inValue condition branch value => .ramput addr inValue condition branch (.var value)

/-! ## The prover's table -/

section
variable (s : Prover) (addr inValue condition : Arg Name) (branch : Bool) (value : Name)

theorem computeFastRamget_eq :
    (computeFastRamget addr (.var value) s).vals = Function.update s.vals value
        ((s.trueRam (addrIdx (addr.eval s.vals))).getD 0) ∧
      (computeFastRamget addr (.var value) s).trueRam = s.trueRam := by
  cases addr <;> simp [computeFastRamget, Arg.eval]

/-- The operands of a store are read before the table is used: a constant is read from the temporary
before the next one overwrites it. -/
private theorem computeFastRamput_reads :
    ∃ s₁ : Prover, s₁.vals = s.vals ∧ s₁.trueRam = s.trueRam ∧
      computeFastRamput addr inValue condition branch (.var value) s =
        let a := addrIdx (addr.eval s.vals)
        let v := inValue.eval s.vals
        if condition.eval s.vals ≠ 0 then
          if branch then (s₁.setRam a v).set (.var value) v
          else s₁.set (.var value) ((s₁.trueRam a).getD 0)
        else
          if !branch then s₁.setRam a v
          else s₁.set (.var value) ((s₁.trueRam a).getD 0) := by
  refine ⟨(voc condition .tempQ (voc inValue .tempQ (voc addr .tempQ s).2).2).2, ?_⟩
  cases addr <;> cases inValue <;> cases condition <;> exact ⟨rfl, rfl, rfl⟩

/-- What a store does to the table and to its target. -/
theorem computeFastRamput_eq :
    let a := addrIdx (addr.eval s.vals)
    let s' := computeFastRamput addr inValue condition branch (.var value) s
    s'.vals = (if executed (condition.eval s.vals) branch then
        if branch then Function.update s.vals value (inValue.eval s.vals) else s.vals
      else Function.update s.vals value ((s.trueRam a).getD 0)) ∧
    s'.trueRam = if executed (condition.eval s.vals) branch then
      Function.update s.trueRam a (some (inValue.eval s.vals)) else s.trueRam := by
  obtain ⟨s₁, hvals, hram, heq⟩ := computeFastRamput_reads s addr inValue condition branch value
  simp only [heq, ← hvals, ← hram, executed]
  by_cases hc : condition.eval s₁.vals = 0 <;> cases branch <;> simp [hc]

end

/-! ## The right run -/

namespace RamLine
variable (v : Name → ℤ) (mem : ℤ → ℤ)

/-- The value a line should assign: the stored value for a store that is executed, and what the
memory holds otherwise. -/
def rightValue : RamLine → ℤ
  | .get addr _ => mem (addr.eval v)
  | .put addr inValue condition branch _ =>
    if executed (condition.eval v) branch then inValue.eval v else mem (addr.eval v)

/-- An executed store in an else branch stores `0`. -/
def ElseStoresZero : RamLine → Prop
  | .get _ _ => True
  | .put _ inValue condition branch _ =>
    branch = false → condition.eval v = 0 → inValue.eval v = 0

def StoresInt64 : RamLine → Prop
  | .get _ _ => True
  | .put _ inValue _ _ _ => -2 ^ 63 ≤ inValue.eval v ∧ inValue.eval v < 2 ^ 63

/-- The address has 32 bits, the condition is `0` or `1`, and the stored value has 64 bits. -/
structure InRange (l : RamLine) : Prop where
  addr_nonneg : 0 ≤ l.addr.eval v
  addr_lt : l.addr.eval v < 2 ^ 32
  condition : l.BoolCondition v
  value : l.StoresInt64 v

end RamLine

/-- The variables after the lines, each assigned as it should be. -/
def rightRun (v : Name → ℤ) (mem : ℤ → ℤ) : List RamLine → Name → ℤ
  | [] => v
  | l :: ls =>
    rightRun (Function.update v l.value (l.rightValue v mem)) (l.memoryAfter v mem) ls

/-- Along the right run, every line finds variables that satisfy `P`. -/
def AlongRun (P : (Name → ℤ) → RamLine → Prop) (v : Name → ℤ) (mem : ℤ → ℤ) : List RamLine → Prop
  | [] => True
  | l :: ls =>
    P v l ∧ AlongRun P (Function.update v l.value (l.rightValue v mem)) (l.memoryAfter v mem) ls

section
variable {v : Name → ℤ} {mem : ℤ → ℤ} {ls : List RamLine}

theorem rightRun_of_forall_ne {o : Name} (h : ∀ l ∈ ls, l.value ≠ o) :
    rightRun v mem ls o = v o := by
  induction ls generalizing v mem with
  | nil => rfl
  | cons l ls ih =>
    obtain ⟨hl, hls⟩ := List.forall_mem_cons.mp h
    rw [rightRun, ih hls, Function.update_of_ne hl.symm]

theorem rightRun_operand (v : Name → ℤ) (mem : ℤ → ℤ) {l : RamLine} (hssa : RamSsa (l :: ls)) :
    ∀ o ∈ l.operands, rightRun v mem (l :: ls) o = v o :=
  fun _ ho => rightRun_of_forall_ne (hssa.value_ne_operand ho)

theorem rightRun_value (v : Name → ℤ) (mem : ℤ → ℤ) {l : RamLine} (hssa : RamSsa (l :: ls)) :
    rightRun v mem (l :: ls) l.value = l.rightValue v mem := by
  rw [rightRun, rightRun_of_forall_ne hssa.value_ne, Function.update_self]

/-- What holds along the run of what a line reads holds at its end. -/
theorem AlongRun.forall {P : (Name → ℤ) → RamLine → Prop} (hssa : RamSsa ls)
    (hP : ∀ l v v', (∀ o ∈ l.operands, v' o = v o) → P v l → P v' l)
    (h : AlongRun P v mem ls) : ∀ l ∈ ls, P (rightRun v mem ls) l := by
  induction ls generalizing v mem with
  | nil => nofun
  | cons l ls ih =>
    refine List.forall_mem_cons.mpr ⟨hP l v _ (rightRun_operand v mem hssa) h.1, ih hssa.tail h.2⟩

private theorem right_stores {v' : Name → ℤ} {l : RamLine} (hz : ∀ o ∈ l.operands, v' o = v o)
    (hvalue : v' l.value = l.rightValue v mem) : l.Stores v' := by
  cases l with
  | get addr value => trivial
  | put addr inValue condition branch value =>
    intro hex
    have hin : inValue.eval v' = inValue.eval v := inValue.eval_congr fun x hx =>
      hz x (by simp [RamLine.operands, RamLine.inValueVars, hx])
    have hcond : condition.eval v' = condition.eval v := condition.eval_congr fun x hx =>
      hz x (by simp [RamLine.operands, RamLine.inputs, hx])
    rw [hcond] at hex
    have h : v' value = if executed (condition.eval v) branch then inValue.eval v
      else mem (addr.eval v) := hvalue
    rw [h, if_pos hex, hin]

/-- An assigned value is what the memory then holds at the address. -/
theorem update_rightValue (l : RamLine) :
    Function.update mem (l.addr.eval v) (l.rightValue v mem) = l.memoryAfter v mem := by
  cases l with
  | get addr value => exact Function.update_eq_self _ _
  | put addr inValue condition branch value =>
    simp only [RamLine.addr, RamLine.rightValue, RamLine.memoryAfter]
    split
    · rfl
    · exact Function.update_eq_self _ _

/-- The right run stores what it should, and replays. -/
theorem rightRun_spec (v : Name → ℤ) (mem : ℤ → ℤ) (hssa : RamSsa ls) (t : ℕ) :
    (∀ l ∈ ls, l.Stores (rightRun v mem ls)) ∧
      Replays mem ((tuples (rightRun v mem ls) t ls).map MemOp.access) := by
  induction ls generalizing v mem t with
  | nil => exact ⟨nofun, trivial⟩
  | cons l ls ih =>
    obtain ⟨hstores, hreplays⟩ := ih (Function.update v l.value (l.rightValue v mem))
      (l.memoryAfter v mem) hssa.tail (t + 1)
    have hkeep := rightRun_operand v mem hssa
    have hvalue := rightRun_value v mem hssa
    obtain ⟨haddr, -, -⟩ := l.after_congr mem (fun _ => false) hkeep
    refine ⟨List.forall_mem_cons.mpr ⟨right_stores hkeep hvalue, hstores⟩, fun hload => ?_, ?_⟩
    · have h : rightRun v mem (l :: ls) l.value = mem (l.addr.eval (rightRun v mem (l :: ls))) := by
        rw [hvalue, haddr]
        cases l with
        | get addr value => rfl
        | put addr inValue condition branch value =>
          have h0 : ((if executed (condition.eval _) branch then storeOp else noOp : ℤ)) = loadOp :=
            hload
          split at h0 <;> cases h0
      exact h
    · have h : Replays (Function.update mem (l.addr.eval (rightRun v mem (l :: ls)))
          (rightRun v mem (l :: ls) l.value))
          ((tuples (rightRun v mem (l :: ls)) (t + 1) ls).map MemOp.access) := by
        rw [haddr, hvalue, update_rightValue]
        exact hreplays
      exact h

/-- Values of 64 bits stay in the memory and in the variables. -/
theorem rightRun_int64 (hssa : RamSsa ls) (hrange : AlongRun RamLine.StoresInt64 v mem ls)
    (hmem : ∀ a, -2 ^ 63 ≤ mem a ∧ mem a < 2 ^ 63) :
    ∀ l ∈ ls, -2 ^ 63 ≤ rightRun v mem ls l.value ∧ rightRun v mem ls l.value < 2 ^ 63 := by
  induction ls generalizing v mem with
  | nil => nofun
  | cons l ls ih =>
    have hright : -2 ^ 63 ≤ l.rightValue v mem ∧ l.rightValue v mem < 2 ^ 63 := by
      cases l with
      | get addr value => exact hmem _
      | put addr inValue condition branch value =>
        rw [RamLine.rightValue]
        split
        · exact hrange.1
        · exact hmem _
    have hmem' : ∀ a, -2 ^ 63 ≤ l.memoryAfter v mem a ∧ l.memoryAfter v mem a < 2 ^ 63 := by
      intro a
      rw [← update_rightValue]
      by_cases ha : a = l.addr.eval v
      · rw [ha, Function.update_self]
        exact hright
      · rw [Function.update_of_ne ha]
        exact hmem a
    refine List.forall_mem_cons.mpr ⟨?_, ih hssa.tail hrange.2 hmem'⟩
    rw [rightRun_value v mem hssa]
    exact hright

end

/-! ## The prover follows the right run -/

theorem addrIdx_intCast {a : ℤ} (h0 : 0 ≤ a) (hlt : a < 2 ^ 32) : ((addrIdx a : ℕ) : ℤ) = a := by
  simp only [addrIdx, Rat.num_intCast]
  omega

section
variable {p : ℕ} {s : Prover}

theorem ramCmd_frame (l : RamLine) {o : Name} (ho : o ≠ l.value) :
    (l.cmd.exec p s).vals o = s.vals o := by
  cases l with
  | get addr value =>
    have h := (computeFastRamget_eq s addr value).1
    simp only [RamLine.cmd, Cmd.exec, h]
    exact Function.update_of_ne ho _ _
  | put addr inValue condition branch value =>
    have h := (computeFastRamput_eq s addr inValue condition branch value).1
    have ho : o ≠ value := ho
    simp only [RamLine.cmd, Cmd.exec, h]
    split
    · split
      · exact Function.update_of_ne ho _ _
      · rfl
    · exact Function.update_of_ne ho _ _

theorem ramCmds_frame {ls : List RamLine} {o : Name} (ho : ∀ l ∈ ls, l.value ≠ o) :
    (execAll p (ls.map RamLine.cmd) s).vals o = s.vals o := by
  induction ls generalizing s with
  | nil => rfl
  | cons l ls ih =>
    obtain ⟨hl, hls⟩ := List.forall_mem_cons.mp ho
    rw [List.map_cons, execAll_cons, ih hls, ramCmd_frame l hl.symm]

variable {main : Name → Prop} {v : Name → ℤ} {mem : ℤ → ℤ} {l : RamLine}

def Prover.Holds (s : Prover) (mem : ℤ → ℤ) : Prop := ∀ a : ℕ, (s.trueRam a).getD 0 = (mem a : ℚ)

private theorem holds_update {w : ℤ} {a : ℤ} (h0 : 0 ≤ a) (hlt : a < 2 ^ 32) (hram : s.Holds mem)
    {s' : Prover} (hs' : s'.trueRam = Function.update s.trueRam (addrIdx a) (some (w : ℚ))) :
    s'.Holds (Function.update mem a w) := by
  intro b
  have hidx := addrIdx_intCast h0 hlt
  rw [hs']
  by_cases hb : b = addrIdx a
  · subst hb
    rw [Function.update_self, hidx, Function.update_self]
    rfl
  · have hne : (b : ℤ) ≠ a := fun heq => hb (by omega)
    rw [Function.update_of_ne hb, Function.update_of_ne hne, hram b]

private theorem holds_addr {a : ℤ} (h0 : 0 ≤ a) (hlt : a < 2 ^ 32) (hram : s.Holds mem) :
    (s.trueRam (addrIdx a)).getD 0 = (mem a : ℚ) := by
  rw [hram, addrIdx_intCast h0 hlt]

/-- One line: the table follows the memory, and the variable is assigned as it should be if it
starts with `0` and the line is not an executed store in an else branch of another value. -/
theorem ramCmd_exec (hs : s.Agrees main v) (hram : s.Holds mem)
    (hmain : ∀ x ∈ l.value :: l.operands, main x) (hrange : l.InRange v) :
    (l.cmd.exec p s).Holds (l.memoryAfter v mem) ∧
      (v l.value = 0 → l.ElseStoresZero v →
        (l.cmd.exec p s).Agrees main (Function.update v l.value (l.rightValue v mem))) := by
  obtain ⟨hvalue, hops⟩ := List.forall_mem_cons.mp hmain
  obtain ⟨h0, hlt, -, -⟩ := hrange
  have hagree : ∀ w : ℤ, (l.cmd.exec p s).vals l.value = (w : ℚ) →
      (l.cmd.exec p s).Agrees main (Function.update v l.value w) := by
    intro w hw o ho
    by_cases hol : o = l.value
    · rw [hol, hw, Function.update_self]
    · rw [ramCmd_frame l hol, Function.update_of_ne hol, hs o ho]
  cases l with
  | get addr value =>
    have haddr : addr.eval s.vals = ((addr.eval v : ℤ) : ℚ) := hs.eval_arg fun x hx =>
      hops x (by simp [RamLine.operands, RamLine.inputs, hx])
    obtain ⟨hvals, htable⟩ := computeFastRamget_eq s addr value
    refine ⟨fun a => ?_, fun _ _ => hagree _ ?_⟩
    · simp only [RamLine.cmd, Cmd.exec, htable]
      exact hram a
    · simp only [RamLine.cmd, Cmd.exec, hvals, RamLine.value, Function.update_self, haddr]
      exact holds_addr h0 hlt hram
  | put addr inValue condition branch value =>
    obtain ⟨haddr, hin, hcond⟩ := RamLine.forall_put
      (P := fun a => a.eval s.vals = ((a.eval v : ℤ) : ℚ)) fun a ha =>
        hs.eval_arg fun x hx => hops x (ha hx)
    have hex : executed (condition.eval s.vals) branch = executed (condition.eval v) branch := by
      simp [executed, hcond]
    obtain ⟨hvals, htable⟩ := computeFastRamput_eq s addr inValue condition branch value
    rw [hex, haddr, hin] at hvals htable
    refine ⟨?_, fun hzero helse => hagree _ ?_⟩
    · rw [RamLine.memoryAfter]
      by_cases he : executed (condition.eval v) branch = true
      · rw [if_pos he] at htable ⊢
        exact holds_update h0 hlt hram htable
      · rw [if_neg he] at htable ⊢
        intro a
        simp only [RamLine.cmd, Cmd.exec, htable]
        exact hram a
    · simp only [RamLine.cmd, Cmd.exec, hvals, RamLine.value, RamLine.rightValue]
      by_cases he : executed (condition.eval v) branch = true
      · rw [if_pos he, if_pos he]
        cases branch with
        | true => simp
        | false =>
          have hc : condition.eval v = 0 := by simpa [executed] using he
          have hv0 : s.vals value = ((v value : ℤ) : ℚ) := hs value hvalue
          have hzero : v value = 0 := hzero
          simp [hv0, hzero, helse rfl hc]
      · rw [if_neg he, if_neg he, Function.update_self]
        exact holds_addr h0 hlt hram

/-- All lines. -/
theorem ramCmds_exec {ls : List RamLine} (hssa : RamSsa ls) (hs : s.Agrees main v)
    (hram : s.Holds mem) (hmain : ∀ l ∈ ls, ∀ x ∈ l.value :: l.operands, main x)
    (hzero : ∀ l ∈ ls, v l.value = 0) (hrange : AlongRun RamLine.InRange v mem ls)
    (helse : AlongRun RamLine.ElseStoresZero v mem ls) :
    (execAll p (ls.map RamLine.cmd) s).Agrees main (rightRun v mem ls) := by
  induction ls generalizing s v mem with
  | nil => exact hs
  | cons l ls ih =>
    obtain ⟨hmain, hmains⟩ := List.forall_mem_cons.mp hmain
    obtain ⟨hzero, hzeros⟩ := List.forall_mem_cons.mp hzero
    obtain ⟨hram', hs'⟩ := ramCmd_exec (p := p) hs hram hmain hrange.1
    refine ih hssa.tail (hs' hzero helse.1) hram' hmains (fun l' hl' => ?_) hrange.2 helse.2
    rw [Function.update_of_ne (hssa.value_ne l' hl'), hzeros l' hl']

end

/-! ## The lines for the actual inputs -/

/-- The worksheet line of a store that is always executed assigns to the variable to store what it
holds already. -/
def RamLine.Keeps {R : Type} (z : Name → R) : RamLine → Prop
  | .get _ _ => True
  | .put _ inValue condition branch value =>
    ∀ x, inValue = .var x → ¬ (RamLine.put inValue inValue condition branch value).Conditional →
      z value = z x

section
variable {p : ℕ} {d : Decls}

theorem generateComputationLine_polyLine (a b : Sum Name) (c : Poly Name) (t : Arg Name) :
    (polyLine (some a) (some b) c t).generateComputationLine d =
      some [.poly t (solvedTokens (some a) (some b) c)] := by
  cases t with
  | var x => exact generateComputationPolyLine_minus (some a) (some b) c (.var x) rfl
  | const k => exact generateComputationPolyLine_minus (some a) (some b) c (.const k) rfl

/-- The command that copies the target of a store back to the variable it stores. -/
private def copyCmd (k : Arg Name) (value : Name) (inValue : Arg Name) : Cmd :=
  .poly inValue (solvedTokens (some k.sum) (some (k.sum.sub k)) (some (Arg.var value).sum))

private theorem copyCmd_exec {s : Prover} (k : Arg Name) {value : Name} {inValue : Arg Name}
    (hkeep : ∀ x, inValue = .var x → s.vals value = s.vals x) :
    ((copyCmd k value inValue).exec p s).vals = s.vals := by
  cases inValue with
  | const c => rfl
  | var x =>
    rw [copyCmd, polyCmd_vals (a := some k.sum) (b := some (k.sum.sub k)) p x s rfl
      (by simp [polyCalls]) (by simp [polyCalls]) (by simp [polyCalls])]
    simp [hkeep x rfl]

theorem depth_branchGuard (condition : Arg Name) (branch : Bool) :
    (branchGuard condition branch).depth = 0 := by
  cases branch <;> simp [branchGuard]

/-- The command that computes the type of a conditional store. -/
private def typeCmd (condition : Arg Name) (branch : Bool) (t : ℕ) : Cmd :=
  .poly (.var (.inputType t)) (solvedTokens (some (branchGuard condition branch))
    (some ((Arg.const storeOp).sum.sub (.const noOp))) (some (Arg.const noOp).sum))

private theorem typeCmd_exec {s : Prover} (condition : Arg Name) (branch : Bool) (t : ℕ)
    (hbool : condition.eval s.vals = 0 ∨ condition.eval s.vals = 1) :
    ((typeCmd condition branch t).exec p s).vals (.inputType t) =
      ((if executed (condition.eval s.vals) branch then storeOp else noOp : ℤ) : ℚ) := by
  rw [typeCmd, polyCmd_vals (a := some (branchGuard condition branch))
    (b := some ((Arg.const storeOp).sum.sub (.const noOp))) p _ s rfl
    (by simp [polyCalls, depth_branchGuard]) (by simp [polyCalls]) (by simp [polyCalls]),
    Function.update_self]
  simp only [Poly.eval_some, eval_branchGuard branch hbool, Sum.eval_sub, Sum.eval_sum,
    Arg.eval_const]
  split <;> norm_num [storeOp, noOp]

/-- The commands of one operation only assign its type. -/
theorem actual_exec (p : ℕ) (t : ℕ) (l : RamLine) :
    ∃ cmds, generateComputationLines d (l.memInput t).actual.1 = some cmds ∧
      ∀ s : Prover, l.Keeps s.vals →
        (∀ o, o ≠ .inputType t → (execAll p cmds s).vals o = s.vals o) ∧
        (l.Conditional → l.BoolCondition s.vals →
          (execAll p cmds s).vals (.inputType t) = ((l.actualType s.vals : ℤ) : ℚ)) := by
  cases l with
  | get addr value => exact ⟨[], rfl, fun s _ => ⟨fun _ _ => rfl, nofun⟩⟩
  | put addr inValue condition branch value =>
    have hstore := MemInput.actual_of_store
      (m := (RamLine.put addr inValue condition branch value).memInput t) rfl
    simp only [RamLine.memInput] at hstore ⊢
    -- a store that is always executed: its one line copies the target back
    have hcopy : ∀ k : Arg Name,
        ¬ (RamLine.put addr inValue condition branch value).Conditional →
        ∃ cmds, generateComputationLines d [polyLine (some k.sum) (some (k.sum.sub k))
          (some (Arg.var value).sum) inValue] = some cmds ∧
        ∀ s : Prover, (RamLine.put addr inValue condition branch value).Keeps s.vals →
          (∀ o, o ≠ .inputType t → (execAll p cmds s).vals o = s.vals o) ∧
          ((RamLine.put addr inValue condition branch value).Conditional →
            (RamLine.put addr inValue condition branch value).BoolCondition s.vals →
            (execAll p cmds s).vals (.inputType t) = (((RamLine.put addr inValue condition branch
              value).actualType s.vals : ℤ) : ℚ)) := by
      intro k hcond
      refine ⟨[copyCmd k value inValue], ?_, fun s hkeep => ⟨fun o _ => ?_,
        fun hc => absurd hc hcond⟩⟩
      · rw [generateComputationLines, generateComputationLine_polyLine]
        rfl
      · exact congrFun (copyCmd_exec (p := p) k fun x hx => hkeep x hx hcond) o
    rcases hstore with ⟨rfl, rfl, h⟩ | ⟨rfl, rfl, h⟩ | ⟨h1, h0, h⟩
    · rw [h]
      exact hcopy (.const 1) (by simp [RamLine.Conditional])
    · rw [h]
      exact hcopy (.const 0) (by simp [RamLine.Conditional])
    · rw [h]
      have htype := generateComputationLine_polyLine (d := d) (branchGuard condition branch)
        ((Arg.const storeOp).sum.sub (.const noOp)) (some (Arg.const noOp).sum)
        (.var (.inputType t))
      have hcheck := generateComputationLine_polyLine (d := d) (branchGuard condition branch)
        ((Arg.var value).sum.sub inValue) (some (Arg.const 0).sum) (.const 0)
      refine ⟨[typeCmd condition branch t, .poly (.const 0) (solvedTokens
        (some (branchGuard condition branch)) (some ((Arg.var value).sum.sub inValue))
        (some (Arg.const 0).sum))], ?_, fun s _ => ⟨fun o ho => ?_, fun _ hbool => ?_⟩⟩
      · simp only [polyLine] at htype hcheck
        simp only [generateComputationLines, htype, hcheck]
        rfl
      · exact Function.update_of_ne ho _ _
      · exact typeCmd_exec (p := p) condition branch t hbool

/-- Lines that agree on the variables of the spec agree on what they keep, read and are. -/
private theorem keeps_congr {R : Type} {z z' : Name → R} {ls : List RamLine} (hssa : RamSsa ls)
    (hspec : ∀ x, z' (.spec x) = z (.spec x)) {l : RamLine} (hl : l ∈ ls) (h : l.Keeps z) :
    l.Keeps z' := by
  cases l with
  | get addr value => trivial
  | put addr inValue condition branch value =>
    rintro x rfl hcond
    have hagree := hssa.agree hspec _ hl
    have hvalue : z' value = z value := hagree value List.mem_cons_self
    have hx : z' x = z x := hagree x (by simp [RamLine.operands, RamLine.inValueVars])
    rw [hvalue, hx]
    exact h x rfl hcond

/-- The commands of all operations only assign their types. -/
theorem actualLines_exec (p : ℕ) {ls : List RamLine} (hssa : RamSsa ls) (t : ℕ) :
    ∃ cmds, generateComputationLines d (actualInputLines t ls) = some cmds ∧
      ∀ s : Prover, (∀ l ∈ ls, l.Keeps s.vals) →
        (∀ o, (∀ k, o ≠ .inputType (t + k)) → (execAll p cmds s).vals o = s.vals o) ∧
        (∀ k l, ls[k]? = some l → l.Conditional → l.BoolCondition s.vals →
          (execAll p cmds s).vals (.inputType (t + k)) = ((l.actualType s.vals : ℤ) : ℚ)) := by
  induction ls generalizing t with
  | nil => exact ⟨[], rfl, fun s _ => ⟨fun _ _ => rfl, nofun⟩⟩
  | cons l ls ih =>
    obtain ⟨cmds₁, hgen₁, hexec₁⟩ := actual_exec (d := d) p t l
    obtain ⟨cmds₂, hgen₂, hexec₂⟩ := ih hssa.tail (t + 1)
    refine ⟨cmds₁ ++ cmds₂, ?_, fun s hkeep => ?_⟩
    · rw [actualInputLines_cons, generateComputationLines_append, hgen₁, hgen₂]
      rfl
    · obtain ⟨hkeep, hkeeps⟩ := List.forall_mem_cons.mp hkeep
      obtain ⟨hframe₁, htype₁⟩ := hexec₁ s hkeep
      have hspec : ∀ x, (execAll p cmds₁ s).vals (.spec x) = s.vals (.spec x) :=
        fun x => hframe₁ _ nofun
      obtain ⟨hframe₂, htype₂⟩ := hexec₂ (execAll p cmds₁ s) fun l' hl' =>
        keeps_congr hssa.tail hspec hl' (hkeeps l' hl')
      rw [execAll_append]
      refine ⟨fun o ho => ?_, fun k l' hk hcond hbool => ?_⟩
      · have ho' : ∀ k, o ≠ .inputType (t + 1 + k) := fun k => by
          have h := ho (1 + k)
          rwa [← Nat.add_assoc] at h
        rw [hframe₂ o ho', hframe₁ o (ho 0)]
      · cases k with
        | zero =>
          obtain rfl : l = l' := by simpa using hk
          have hne : ∀ k, Name.inputType (t + 0) ≠ .inputType (t + 1 + k) := fun k h => by
            have := Name.inputType.inj h
            omega
          rw [hframe₂ _ hne]
          exact htype₁ hcond hbool
        | succ k =>
          have hk : ls[k]? = some l' := by simpa using hk
          have hl' := hssa.tail.agree hspec l' (List.mem_of_getElem? hk)
          obtain ⟨htuple, -, hbool'⟩ := RamLine.congr hl'
          have h := htype₂ k l' hk hcond (hbool'.mpr hbool)
          have htype : ((l'.actualType (execAll p cmds₁ s).vals : ℤ) : ℚ) =
            (l'.actualType s.vals : ℤ) := congrArg MemOp.type (htuple 0)
          rw [htype, Nat.add_assoc, Nat.add_comm 1] at h
          exact h

end

/-! ## When the prover satisfies the constraints -/

/-- `a` stands before `b` in the order of the network outputs. -/
def MemOp.Precedes {α : Type} [LT α] (a b : MemOp α) : Prop :=
  a.addr < b.addr ∨ a.addr = b.addr ∧ a.ts < b.ts

/-- The network writes the operations `ops` to its outputs. -/
def Prover.setOutputs (s : Prover) (ops : List (MemOp ℚ)) : Prover :=
  { s with vals := withOutputs s.vals ops }

/-- The prover executes the lines from `s`, then the lines for the actual inputs, and then, on the
sorted inputs, the consistency checks; its assignment satisfies the constraints. -/
def FastRamComplete (p : ℕ) (d : Decls) (s : Prover) (ls : List RamLine) : Prop :=
  ∃ actualCmds checkCmds,
    generateComputationLines (declareOutputs d) (actualInputLines 0 ls) = some actualCmds ∧
    generateComputationLines (declareOutputs d) (memConsistencyLines ls.length) =
      some checkCmds ∧
    let s₂ := execAll p actualCmds (execAll p (ls.map RamLine.cmd) s)
    Satisfies (s₂.witness p) (toBasicConstraintsLines (declareOutputs d) (actualInputLines 0 ls)) ∧
    ∀ ops, ops.Perm ((actualInputs 0 ls).map (MemOp.map (Arg.eval s₂.vals))) →
      ops.Pairwise MemOp.Precedes →
      let z := (execAll p checkCmds (s₂.setOutputs ops)).witness p
      Satisfies z (toBasicConstraintsLines (declareOutputs d) (actualInputLines 0 ls)) ∧
        Satisfies z (toBasicConstraintsLines (declareOutputs d) (memConsistencyLines ls.length))

/-- The variables of the lines, and the variables the backend makes up. -/
def RamMain (ls : List RamLine) (o : Name) : Prop :=
  (∃ l ∈ ls, o ∈ l.value :: l.operands) ∨ ∀ x, o ≠ .spec x

/-- The state in which the prover meets the first line: the table is empty, the operands have the
integer values `v`, and variables that are not yet computed are `0`. -/
structure ProverStart (ls : List RamLine) (s : Prover) (v : Name → ℤ) : Prop where
  ram : s.trueRam = fun _ => none
  agrees : s.Agrees (RamMain ls) v
  values : ∀ l ∈ ls, v l.value = 0

section
variable {p : ℕ} [Fact p.Prime] {d : Decls} {ls : List RamLine} {v : Name → ℤ}

/-- A state with the right values of the variables and of the types satisfies the constraints for
the actual inputs. -/
theorem satisfies_actual_of_right {s : Prover} (hbool : ∀ l ∈ ls, l.BoolCondition v)
    (hstores : ∀ l ∈ ls, l.Stores v)
    (hvals : ∀ l ∈ ls, ∀ x ∈ l.value :: l.operands, s.vals x = (v x : ℚ))
    (htype : ∀ k l, ls[k]? = some l → l.Conditional →
      s.vals (.inputType k) = ((l.actualType v : ℤ) : ℚ)) :
    Satisfies (s.witness p) (toBasicConstraintsLines d (actualInputLines 0 ls)) ∧
      (actualInputs 0 ls).map (MemOp.map (Arg.eval s.vals)) =
        (tuples v 0 ls).map (MemOp.map Int.cast) := by
  have hwitness : ∀ l ∈ ls, ∀ x ∈ l.value :: l.operands, s.witness p x = (v x : ZMod p) :=
    fun l hl x hx => by rw [Prover.witness, hvals l hl x hx, toField_intCast]
  constructor
  · refine (satisfies_actualInputLines fun l hl =>
      (RamLine.cast (hwitness l hl) (hbool l hl)).2.2).mpr ⟨map_actualInputs ?_, fun l hl => ?_⟩
    · intro k l hk hcond
      have hl := List.mem_of_getElem? hk
      have htuple : ((l.actualType (s.witness p) : ℤ) : ZMod p) = ((l.actualType v : ℤ) : ZMod p) :=
        by simpa [RamLine.tuple, MemOp.map] using
          congrArg MemOp.type ((RamLine.cast (hwitness l hl) (hbool l hl)).1 0)
      rw [Nat.zero_add, Prover.witness, htype k l hk hcond, toField_intCast, htuple]
    · exact (RamLine.cast (hwitness l hl) (hbool l hl)).2.1 (hstores l hl)
  · rw [← tuples_cast hvals hbool]
    refine map_actualInputs fun k l hk hcond => ?_
    have hl := List.mem_of_getElem? hk
    have htuple : ((l.actualType s.vals : ℤ) : ℚ) = ((l.actualType v : ℤ) : ℚ) := by
      simpa [RamLine.tuple, MemOp.map] using
        congrArg MemOp.type ((RamLine.cast (hvals l hl) (hbool l hl)).1 0)
    rw [Nat.zero_add, htype k l hk hcond, htuple]

omit [Fact p.Prime] in
/-- The tuples are in the order of time. -/
theorem intTuples_ordered (t : ℕ) :
    ((tuples v t ls).map MemOp.access).Pairwise fun a b => a.ts < b.ts := by
  induction ls generalizing t with
  | nil => exact .nil
  | cons l ls ih =>
    refine List.pairwise_cons.mpr ⟨fun b hb => ?_, ih (t + 1)⟩
    obtain ⟨op, hop, rfl⟩ := List.mem_map.mp hb
    obtain ⟨l', -, k, -, rfl⟩ := mem_tuples hop
    simp only [MemOp.access, RamLine.tuple]
    omega

end

theorem RamLine.InRange.congr {l : RamLine} {v v' : Name → ℤ} (hv : ∀ o ∈ l.operands, v' o = v o)
    (h : l.InRange v) : l.InRange v' := by
  obtain ⟨h0, hlt, hbool, hstores⟩ := h
  obtain ⟨haddr, -, -⟩ := l.after_congr (fun _ => 0) (fun _ => false) hv
  refine ⟨haddr ▸ h0, haddr ▸ hlt, ?_, ?_⟩
  · cases l with
    | get addr value => trivial
    | put addr inValue condition branch value =>
      rwa [BoolCondition, condition.eval_congr fun x hx =>
        hv x (by simp [operands, inputs, hx])]
  · cases l with
    | get addr value => trivial
    | put addr inValue condition branch value =>
      rwa [StoresInt64, inValue.eval_congr fun x hx =>
        hv x (by simp [operands, inValueVars, hx])]

theorem AlongRun.imp {P Q : (Name → ℤ) → RamLine → Prop} {v : Name → ℤ} {mem : ℤ → ℤ}
    {ls : List RamLine} (hPQ : ∀ v l, P v l → Q v l) (h : AlongRun P v mem ls) :
    AlongRun Q v mem ls := by
  induction ls generalizing v mem with
  | nil => trivial
  | cons l ls ih => exact ⟨hPQ v l h.1, ih h.2⟩

/-- A store that is always executed keeps the variable to store if it stores its value. -/
theorem RamLine.Stores.keeps {R : Type} [CommRing R] [Nontrivial R] [DecidableEq R] {z : Name → R}
    {l : RamLine} (h : l.Stores z) : l.Keeps z := by
  cases l with
  | get addr value => trivial
  | put addr inValue condition branch value =>
    rintro x rfl hcond
    refine h ?_
    by_contra hex
    refine hcond ⟨?_, ?_⟩
    · rintro ⟨rfl, rfl⟩
      exact hex (by simp [executed])
    · rintro ⟨rfl, rfl⟩
      exact hex (by simp [executed])

theorem withOutputs_of_ne {R : Type} {z : Name → R} {ops : List (MemOp R)} {o : Name}
    (h : ∀ w k, o ≠ .wire w k) : withOutputs z ops o = z o := by
  cases o with
  | wire w k => exact absurd rfl (h w k)
  | _ => rfl

theorem withOutputs_cast {R : Type} [Ring R] {z : Name → R} {v : Name → ℤ} {ops : List (MemOp ℤ)}
    {o : Name} (h : z o = (v o : R)) :
    withOutputs z (ops.map (MemOp.map Int.cast)) o = ((withOutputs v ops o : ℤ) : R) := by
  have hget : ∀ (op : MemOp ℤ) k, ((op.map Int.cast : MemOp R)).get k = ((op.get k : ℤ) : R) := by
    rintro op (_ | _ | _ | _) <;> rfl
  unfold withOutputs
  split
  · rename_i i k
    cases hop : ops[i]? <;> simp [hop, hget, h]
  · exact h

section
variable {p : ℕ} [Fact p.Prime] {d : Decls} {ls : List RamLine} {v : Name → ℤ} {s : Prover}

/-- Loads of `0` at the addresses `0`, `1`, … -/
private def zeroLoads : Name → ℤ
  | .wire (.O i) .addr => i
  | _ => 0

/-- The lines for the checks can be executed. -/
theorem exists_memConsistencyCmds (hp : 2 ^ 33 < p) (width : ℕ) :
    ∃ cmds, generateComputationLines (declareOutputs d) (memConsistencyLines width) =
      some cmds := by
  -- loads of `0` at the addresses `0`, `1`, … are consistent
  let v := zeroLoads
  have haddr : ∀ i, v (output i).addr = i := fun _ => rfl
  have hzero : ∀ i, v (output i).ts = 0 ∧ v (output i).type = 0 ∧ v (output i).value = 0 :=
    fun _ => ⟨rfl, rfl, rfl⟩
  have hfit : OutputsFit p width v := by
    have hp0 : 0 < p := by omega
    constructor <;> intros <;> simp [haddr, hzero, hp0]
  have hchecked : Checked (outputTrace width v) :=
    checked_outputTrace_iff.mpr ⟨fun _ _ => rfl, fun i _ =>
      .inl ⟨by simp [v, zeroLoads, output, MemOp.map, MemOp.access], fun _ => rfl⟩⟩
  obtain ⟨cmds, hgen, -⟩ := memConsistency_exec (d := d)
    (s := ⟨fun o => v o, 0, 0, fun _ => none⟩) hp (fun _ _ => rfl) hfit hchecked
  exact ⟨cmds, hgen⟩

omit [Fact p.Prime] in
/-- The operations in the ranges of the right run fit. -/
theorem outputsFit_of_right (hp : 2 ^ 66 < p) (hlen : ls.length ≤ 2 ^ 33 + 1) {v' : Name → ℤ}
    {ops : List (MemOp ℤ)} (hperm : ops.Perm (tuples v 0 ls)) (hrange : ∀ l ∈ ls, l.InRange v)
    (hvalue : ∀ l ∈ ls, -2 ^ 63 ≤ v l.value ∧ v l.value < 2 ^ 63) :
    OutputsFit p ls.length (withOutputs v' ops) := by
  have hmem : ∀ i < ls.length, ∃ l ∈ ls, ∃ k < ls.length,
      (output i).map (withOutputs v' ops) = l.tuple v k := by
    intro i hi
    rw [← length_tuples 0 ls (z := v), ← hperm.length_eq] at hi
    have hi : (output i).map (withOutputs v' ops) ∈ ops := by
      rw [← map_output_withOutputs v' ops]
      exact List.mem_map.mpr ⟨i, List.mem_range.mpr hi, by rw [map_output_withOutputs]⟩
    obtain ⟨l, hl, k, hk, heq⟩ := mem_tuples (hperm.mem_iff.mp hi)
    exact ⟨l, hl, k, hk, by simpa using heq⟩
  have h66 : (2 : ℤ) ^ 66 < p := by exact_mod_cast hp
  refine OutputsFit.of_small (-2 ^ 63) (by omega) (by norm_num) fun i hi => ?_
  obtain ⟨l, hl, k, hk, heq⟩ := hmem i hi
  obtain ⟨h0, hlt, -, -⟩ := hrange l hl
  obtain ⟨hge, hlt'⟩ := hvalue l hl
  rw [heq]
  constructor <;> simp only [RamLine.tuple, Int.natCast_nonneg]
  · exact h0
  · omega
  · push_cast
    omega
  · cases l with
    | get addr value => simpa [RamLine.actualType, loadOp] using (by omega : (0 : ℤ) < p)
    | put addr inValue condition branch value =>
      simp only [RamLine.actualType, storeOp, noOp]
      split <;> norm_num <;> omega
  · exact hge
  · omega

omit [Fact p.Prime] in
/-- Sorted operations in another ring are sorted operations of integers. -/
theorem exists_intOps {ops : List (MemOp ℚ)}
    (hperm : ops.Perm ((tuples v 0 ls).map (MemOp.map Int.cast)))
    (hsorted : ops.Pairwise MemOp.Precedes) :
    ∃ iops : List (MemOp ℤ), iops.Perm (tuples v 0 ls) ∧ ops = iops.map (MemOp.map Int.cast) ∧
      (iops.map MemOp.access).Pairwise Lex := by
  have hnum : ∀ op : MemOp ℤ, (op.map (Int.cast : ℤ → ℚ)).map Rat.num = op := fun _ => rfl
  have hperm' : (ops.map (MemOp.map Rat.num)).Perm (tuples v 0 ls) := by
    have hid : MemOp.map Rat.num ∘ MemOp.map (Int.cast : ℤ → ℚ) = id := funext hnum
    have h := hperm.map (MemOp.map Rat.num)
    rwa [List.map_map, hid, List.map_id] at h
  have hops : ops = (ops.map (MemOp.map Rat.num)).map (MemOp.map Int.cast) := by
    rw [List.map_map]
    refine (List.map_id ops).symm.trans (List.map_congr_left fun op hop => ?_)
    obtain ⟨iop, -, rfl⟩ := List.mem_map.mp (hperm.mem_iff.mp hop)
    exact congrArg (MemOp.map Int.cast) (hnum iop).symm
  refine ⟨ops.map (MemOp.map Rat.num), hperm', hops, ?_⟩
  rw [hops] at hsorted
  refine List.pairwise_map.mpr ((List.pairwise_map.mp hsorted).imp_of_mem fun {a b} ha _ h => ?_)
  obtain ⟨l, -, k, -, rfl⟩ := mem_tuples (hperm'.mem_iff.mp ha)
  simp only [MemOp.Precedes, MemOp.map, Int.cast_lt, Int.cast_inj] at h
  refine h.imp_right fun hpair => ⟨hpair.1, ?_⟩
  have hts := hpair.2
  simp only [RamLine.tuple] at hts
  simp only [MemOp.access, RamLine.tuple]
  omega

/-- On sorted operations that replay, the checks are satisfied, and nothing else changes. -/
theorem checks_exec (hp : 2 ^ 66 < p) (hlen : ls.length ≤ 2 ^ 33 + 1) {checkCmds : List Cmd}
    (hgen : generateComputationLines (declareOutputs d) (memConsistencyLines ls.length) =
      some checkCmds)
    (hrange : ∀ l ∈ ls, l.InRange v)
    (hvalue : ∀ l ∈ ls, -2 ^ 63 ≤ v l.value ∧ v l.value < 2 ^ 63)
    (hreplays : Replays (fun _ => 0) ((tuples v 0 ls).map MemOp.access))
    (hs : ∀ o, (∀ x, o ≠ .spec x) → (∀ k, o ≠ .inputType k) → s.vals o = (v o : ℚ))
    {ops : List (MemOp ℚ)} (hperm : ops.Perm ((tuples v 0 ls).map (MemOp.map Int.cast)))
    (hsorted : ops.Pairwise MemOp.Precedes) :
    Satisfies ((execAll p checkCmds (s.setOutputs ops)).witness p)
        (toBasicConstraintsLines (declareOutputs d) (memConsistencyLines ls.length)) ∧
      ∀ o, ¬ AuxOwned o → (∀ w k, o ≠ .wire w k) →
        (execAll p checkCmds (s.setOutputs ops)).vals o = s.vals o := by
  obtain ⟨iops, hiperm, rfl, hisorted⟩ := exists_intOps hperm hsorted
  have hlength : iops.length = ls.length := by rw [hiperm.length_eq, length_tuples]
  have hagrees : (s.setOutputs (iops.map (MemOp.map Int.cast))).Agrees OutputMain
      (withOutputs v iops) := by
    intro o ho
    refine withOutputs_cast (hs o ?_ ?_)
    · rintro x rfl
      exact ho
    · rintro k rfl
      exact ho
  have hchecked : Checked (outputTrace ls.length (withOutputs v iops)) := by
    have htrace : outputTrace ls.length (withOutputs v iops) = iops.map MemOp.access := by
      have h := congrArg (List.map MemOp.access) (map_output_withOutputs v iops)
      rwa [List.map_map, hlength] at h
    rw [htrace]
    exact (MemoryTrace.checked_iff_replays (hiperm.map _) hisorted (intTuples_ordered 0)).mpr
      hreplays
  obtain ⟨cmds, hgen', hsat, hframe⟩ := memConsistency_exec (d := d)
    (lt_trans (by norm_num) hp) hagrees (outputsFit_of_right hp hlen hiperm hrange hvalue) hchecked
  obtain rfl : checkCmds = cmds := Option.some.inj (hgen.symm.trans hgen')
  refine ⟨hsat, fun o ho hwire => ?_⟩
  rw [hframe o ho]
  exact withOutputs_of_ne hwire

theorem ProverStart.holds (h : ProverStart ls s v) : s.Holds fun _ => 0 := by
  intro a
  simp [h.ram]

/-- If every executed store in an else branch stores `0`, the prover satisfies the constraints. -/
theorem fastRamComplete_of_elseStoresZero (hp : 2 ^ 66 < p) (hlen : ls.length ≤ 2 ^ 33 + 1)
    (hssa : RamSsa ls) (hstart : ProverStart ls s v)
    (hrange : AlongRun RamLine.InRange v (fun _ => 0) ls)
    (helse : AlongRun RamLine.ElseStoresZero v (fun _ => 0) ls) : FastRamComplete p d s ls := by
  set v' := rightRun v (fun _ => 0) ls
  set s₁ := execAll p (ls.map RamLine.cmd) s
  have hs₁ : s₁.Agrees (RamMain ls) v' := ramCmds_exec hssa hstart.agrees hstart.holds
    (fun l hl x hx => .inl ⟨l, hl, hx⟩) hstart.values hrange helse
  have hvals₁ : ∀ l ∈ ls, ∀ x ∈ l.value :: l.operands, s₁.vals x = (v' x : ℚ) :=
    fun l hl x hx => hs₁ x (.inl ⟨l, hl, hx⟩)
  obtain ⟨hstores, hreplays⟩ := rightRun_spec v (fun _ => 0) hssa 0
  have hrange' : ∀ l ∈ ls, l.InRange v' :=
    hrange.forall hssa fun l v v' hv h => RamLine.InRange.congr hv h
  have hbool : ∀ l ∈ ls, l.BoolCondition v' := fun l hl => (hrange' l hl).condition
  have hint64 : ∀ l ∈ ls, -2 ^ 63 ≤ v' l.value ∧ v' l.value < 2 ^ 63 :=
    rightRun_int64 hssa (hrange.imp fun _ _ h => h.value) fun _ => by norm_num
  -- the actual inputs
  obtain ⟨actualCmds, hgenActual, hexec⟩ := actualLines_exec (d := declareOutputs d) p hssa 0
  obtain ⟨checkCmds, hgenCheck⟩ := exists_memConsistencyCmds (d := d) (p := p)
    (lt_trans (by norm_num) hp) ls.length
  obtain ⟨hframe, htype⟩ := hexec s₁ fun l hl =>
    ((RamLine.cast (hvals₁ l hl) (hbool l hl)).2.1 (hstores l hl)).keeps
  set s₂ := execAll p actualCmds s₁
  have hright : ∀ s' : Prover, (∀ x, s'.vals (.spec x) = s₂.vals (.spec x)) →
      (∀ k, s'.vals (.inputType k) = s₂.vals (.inputType k)) →
      Satisfies (s'.witness p)
          (toBasicConstraintsLines (declareOutputs d) (actualInputLines 0 ls)) ∧
        (actualInputs 0 ls).map (MemOp.map (Arg.eval s'.vals)) =
          (tuples v' 0 ls).map (MemOp.map Int.cast) := by
    intro s' hspec htype'
    refine satisfies_actual_of_right hbool hstores (fun l hl x hx => ?_) fun k l hk hcond => ?_
    · obtain ⟨x, rfl⟩ := hssa.spec l hl x hx
      rw [hspec, hframe _ (fun k h => by cases h), hvals₁ l hl _ hx]
    · have hl := List.mem_of_getElem? hk
      obtain ⟨htuple, -, hbool'⟩ := RamLine.cast (hvals₁ l hl) (hbool l hl)
      have h := htype k l hk hcond hbool'
      rw [Nat.zero_add] at h
      rw [htype', h]
      simpa [RamLine.tuple, MemOp.map] using congrArg MemOp.type (htuple 0)
  obtain ⟨hsat₂, hinputs⟩ := hright s₂ (fun _ => rfl) fun _ => rfl
  refine ⟨actualCmds, checkCmds, hgenActual, hgenCheck, hsat₂, fun ops hperm hsorted => ?_⟩
  have hs₂ : ∀ o, (∀ x, o ≠ .spec x) → (∀ k, o ≠ .inputType k) → s₂.vals o = (v' o : ℚ) := by
    intro o hspec htype
    rw [hframe o fun k => htype _, hs₁ o (.inr hspec)]
  obtain ⟨hsat, hkeep⟩ := checks_exec hp hlen hgenCheck hrange' hint64 hreplays hs₂
    (hinputs ▸ hperm) hsorted
  refine ⟨(hright _ (fun x => hkeep _ ?_ (by simp)) fun k => hkeep _ ?_ (by simp)).1, hsat⟩
  · rintro ⟨i, k, h | ⟨sfx, h⟩⟩ <;> cases h
  · rintro ⟨i, k, h | ⟨sfx, h⟩⟩ <;> cases h

/-- A store that is always executed in an else branch: its worksheet line assigns the target, which
was not computed, to the variable to store. -/
def RamLine.Overwrites (l : RamLine) : Prop :=
  ∃ addr x value, l = .put addr (.var x) (.const 0) false value

omit [Fact p.Prime] in
/-- Without such a store, the lines for the actual inputs do not change variables of the spec. -/
theorem ramCmds_keeps (hssa : RamSsa ls) (hover : ∀ l ∈ ls, ¬ l.Overwrites) :
    ∀ l ∈ ls, l.Keeps (execAll p (ls.map RamLine.cmd) s).vals := by
  induction ls generalizing s with
  | nil => nofun
  | cons l ls ih =>
    obtain ⟨hl, hls⟩ := List.forall_mem_cons.mp hover
    rw [List.map_cons, execAll_cons]
    refine List.forall_mem_cons.mpr ⟨?_, ih hssa.tail hls⟩
    cases l with
    | get addr value => trivial
    | put addr inValue condition branch value =>
      rintro x rfl hcond
      have hx : x ∈ (RamLine.put addr (.var x) condition branch value).operands := by
        simp [RamLine.operands, RamLine.inValueVars]
      have hne := hssa.value_ne_operand hx
      have hkeep : ∀ l' ∈ ls, l'.value ≠ x := fun l' hl' => hne l' (List.mem_cons_of_mem _ hl')
      have hvalue : ∀ l' ∈ ls, l'.value ≠ value := hssa.value_ne
      rw [ramCmds_frame hvalue, ramCmds_frame hkeep,
        ramCmd_frame _ (hne _ List.mem_cons_self).symm]
      obtain ⟨rfl, rfl⟩ : condition = .const 1 ∧ branch = true := by
        by_contra h1
        refine hcond ⟨h1, ?_⟩
        rintro ⟨rfl, rfl⟩
        exact hl ⟨addr, x, value, rfl⟩
      have h := (computeFastRamput_eq s addr (.var x) (.const 1) true value).1
      have hex : executed ((Arg.const 1 : Arg Name).eval s.vals) true = true := by simp [executed]
      rw [hex] at h
      simp [RamLine.cmd, Cmd.exec, h]

/-- If the constraints for the actual inputs are satisfied, every executed store in an else branch
stores `0`, the value its target has kept. -/
theorem elseStoresZero_of_satisfies {main : Name → Prop} {mem : ℤ → ℤ} {z : Name → ZMod p}
    (hp : 2 ^ 66 < p) (hssa : RamSsa ls) (hs : s.Agrees main v) (hram : s.Holds mem)
    (hmain : ∀ l ∈ ls, ∀ x ∈ l.value :: l.operands, main x) (hzero : ∀ l ∈ ls, v l.value = 0)
    (hrange : AlongRun RamLine.InRange v mem ls)
    (hz : ∀ x, z (.spec x) = toField p ((execAll p (ls.map RamLine.cmd) s).vals (.spec x)))
    {t : ℕ} (hsat : Satisfies z (toBasicConstraintsLines d (actualInputLines t ls))) :
    AlongRun RamLine.ElseStoresZero v mem ls := by
  induction ls generalizing s v mem t with
  | nil => trivial
  | cons l ls ih =>
    obtain ⟨hmain, hmains⟩ := List.forall_mem_cons.mp hmain
    obtain ⟨hzero, hzeros⟩ := List.forall_mem_cons.mp hzero
    rw [actualInputLines_cons, toBasicConstraintsLines, List.flatMap_append,
      satisfies_append] at hsat
    obtain ⟨hsat, hsats⟩ := hsat
    have helse : l.ElseStoresZero v := by
      cases l with
      | get addr value => trivial
      | put addr inValue condition branch value =>
        rintro rfl hcond
        have hop : ∀ a : Arg Name, (∀ x ∈ a.vars, x ∈ addr.vars ++ condition.vars ++ inValue.vars) →
            a.eval z = ((a.eval v : ℤ) : ZMod p) := by
          intro a ha
          refine a.eval_cast fun x hx => ?_
          have hmem := hssa.value_ne_operand (ha x hx)
          obtain ⟨y, rfl⟩ := hssa.spec _ List.mem_cons_self x (List.mem_cons_of_mem _ (ha x hx))
          rw [hz, ramCmds_frame hmem, hs _ (hmain _ (List.mem_cons_of_mem _ (ha _ hx))),
            toField_intCast]
        have hin := hop inValue fun x hx => by simp [hx]
        have hcond' : condition.eval z = 0 := by
          rw [hop condition fun x hx => by simp [hx], hcond, Int.cast_zero]
        have hvalue : z value = 0 := by
          have hne : ∀ l' ∈ ls, l'.value ≠ value := hssa.value_ne
          have hv : v value = 0 := hzero
          have hex : executed (condition.eval s.vals) false = true := by
            rw [hs.eval_arg fun x hx => hmain x (List.mem_cons_of_mem _ (by
              simp [RamLine.operands, RamLine.inputs, hx])), hcond]
            simp [executed]
          have h := (computeFastRamput_eq s addr inValue condition false value).1
          rw [hex] at h
          obtain ⟨y, rfl⟩ : ∃ y, value = .spec y :=
            hssa.spec _ List.mem_cons_self value List.mem_cons_self
          rw [hz, List.map_cons, execAll_cons, ramCmds_frame hne]
          have hkeep : s.vals (.spec y) = ((v (.spec y) : ℤ) : ℚ) :=
            hs _ (hmain _ List.mem_cons_self)
          simp [RamLine.cmd, Cmd.exec, h, hkeep, hv]
        have hbool : (RamLine.put addr inValue condition false value).BoolCondition z := .inl hcond'
        have hstores := ((satisfies_actual hbool).mp hsat).2 (by simp [executed, hcond'])
        rw [hvalue, hin] at hstores
        have h66 : (2 : ℤ) ^ 66 < p := by exact_mod_cast hp
        refine Residue.eq_zero_of_cast_eq_zero ?_ hstores.symm
        obtain ⟨hge, hlt⟩ := hrange.1.value
        rw [abs_lt]
        omega
    obtain ⟨hram', hs'⟩ := ramCmd_exec (p := p) hs hram hmain hrange.1
    refine ⟨helse, ih hssa.tail (hs' hzero helse) hram' hmains (fun l' hl' => ?_) hrange.2 ?_ hsats⟩
    · rw [Function.update_of_ne (hssa.value_ne l' hl'), hzeros l' hl']
    · intro x
      rw [hz x, List.map_cons, execAll_cons]

theorem elseStoresZero_of_fastRamComplete (hp : 2 ^ 66 < p) (hssa : RamSsa ls)
    (hstart : ProverStart ls s v) (hrange : AlongRun RamLine.InRange v (fun _ => 0) ls)
    (hover : ∀ l ∈ ls, ¬ l.Overwrites) (h : FastRamComplete p d s ls) :
    AlongRun RamLine.ElseStoresZero v (fun _ => 0) ls := by
  obtain ⟨actualCmds, -, hgen, -, hsat, -⟩ := h
  obtain ⟨cmds, hgen', hexec⟩ := actualLines_exec (d := declareOutputs d) p hssa 0
  obtain rfl : actualCmds = cmds := Option.some.inj (hgen.symm.trans hgen')
  obtain ⟨hframe, -⟩ := hexec _ (ramCmds_keeps (p := p) (s := s) hssa hover)
  refine elseStoresZero_of_satisfies hp hssa hstart.agrees hstart.holds
    (fun l hl x hx => .inl ⟨l, hl, hx⟩) hstart.values hrange (fun x => ?_) hsat
  rw [Prover.witness, hframe _ fun k h => by cases h]

/-- The prover satisfies the constraints if every executed store in an else branch stores `0`. If no
store in an else branch has the constant condition `0` and a variable to store, it satisfies them
only then. -/
theorem fastRam_complete (hp : 2 ^ 66 < p) (hssa : RamSsa ls) (hstart : ProverStart ls s v)
    (hrange : AlongRun RamLine.InRange v (fun _ => 0) ls) :
    (AlongRun RamLine.ElseStoresZero v (fun _ => 0) ls → ls.length ≤ 2 ^ 33 + 1 →
        FastRamComplete p d s ls) ∧
      ((∀ l ∈ ls, ¬ l.Overwrites) → FastRamComplete p d s ls →
        AlongRun RamLine.ElseStoresZero v (fun _ => 0) ls) :=
  ⟨fun helse hlen => fastRamComplete_of_elseStoresZero hp hlen hssa hstart hrange helse,
    elseStoresZero_of_fastRamComplete hp hssa hstart hrange⟩

end

/-- A store of `7` in a branch of an `if` with the condition `c`, and a load at its address. -/
def branchStore (branch : Bool) : List RamLine :=
  [.put (.const 0) (.const 7) (.var (.spec "c")) branch (.spec "t"), .get (.const 0) (.spec "x")]

/-- The prover starts with the value `c` of the condition. -/
def branchStart (c : ℤ) : Name → ℤ := Function.update (fun _ => 0) (.spec "c") c

theorem branchStore_ssa (branch : Bool) : RamSsa (branchStore branch) := by
  constructor <;> simp [branchStore, RamLine.value, RamLine.operands, RamLine.inputs,
    RamLine.inValueVars]

theorem branchStore_start (branch : Bool) (c : ℤ) :
    ProverStart (branchStore branch) ⟨fun o => branchStart c o, 0, 0, fun _ => none⟩
      (branchStart c) where
  ram := rfl
  agrees _ _ := rfl
  values := by simp [branchStore, branchStart, RamLine.value]

theorem branchStore_inRange (branch : Bool) {c : ℤ} (hc : c = 0 ∨ c = 1) :
    AlongRun RamLine.InRange (branchStart c) (fun _ => 0) (branchStore branch) := by
  refine ⟨⟨?_, ?_, ?_, ?_⟩, ⟨?_, ?_, trivial, trivial⟩, trivial⟩
  · simp [RamLine.addr]
  · simp [RamLine.addr]
  · simpa [RamLine.BoolCondition, branchStart] using hc
  · simp [RamLine.StoresInt64]
  · simp [RamLine.addr]
  · simp [RamLine.addr]

theorem fastRam_complete_then_branch :
    FastRamComplete (mersenne 89) (intDecls 32)
      ⟨fun o => branchStart 1 o, 0, 0, fun _ => none⟩ (branchStore true) := by
  have : Fact (mersenne 89).Prime := ⟨prime_mersenne_89⟩
  refine (fastRam_complete lt_mersenne_89 (branchStore_ssa true) (branchStore_start true 1)
    (branchStore_inRange true (.inr rfl))).1 ?_ ?_
  · exact ⟨nofun, trivial, trivial⟩
  · simp [branchStore]

theorem fastRam_incomplete_else_branch :
    ¬ FastRamComplete (mersenne 89) (intDecls 32)
      ⟨fun o => branchStart 0 o, 0, 0, fun _ => none⟩ (branchStore false) := by
  have : Fact (mersenne 89).Prime := ⟨prime_mersenne_89⟩
  intro h
  have hover : ∀ l ∈ branchStore false, ¬ l.Overwrites := by
    simp [branchStore, RamLine.Overwrites]
  have helse := elseStoresZero_of_fastRamComplete lt_mersenne_89 (branchStore_ssa false)
    (branchStore_start false 0) (branchStore_inRange false (.inl rfl)) hover h
  have hzero : (7 : ℤ) = 0 := helse.1 rfl (by simp [branchStart])
  exact absurd hzero (by norm_num)

end Pequin
