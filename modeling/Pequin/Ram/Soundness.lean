import Mathlib.NumberTheory.LucasLehmer
import Pequin.Ram.Actual

/-!
# Soundness of the memory consistency constraints

A load should read the value of the latest executed store to its address. The constraints do not
say so: a store that is not executed goes into the network as a no-op whose value the prover
chooses, and the next load at the address has to read this value. The constraints are sound exactly
when no load comes right after such a store to its address.
-/

namespace Pequin

open MemoryTrace (Access Checked Lex Replays)

/-! ## The memory the program means -/

section
variable {R : Type} [CommRing R] [DecidableEq R] (z : Name → R)

namespace RamLine

def Reads (mem : R → R) : RamLine → Prop
  | .get addr value => z value = mem (addr.eval z)
  | .put _ _ _ _ _ => True

/-- The memory after a line: a store is done if it is executed. -/
def memoryAfter (mem : R → R) : RamLine → R → R
  | .get _ _ => mem
  | .put addr inValue condition branch _ =>
    if executed (condition.eval z) branch then Function.update mem (addr.eval z) (inValue.eval z)
    else mem

/-- A load is not at a skipped address. -/
def AvoidsSkipped (skipped : R → Bool) : RamLine → Prop
  | .get addr _ => skipped (addr.eval z) = false
  | .put _ _ _ _ _ => True

/-- The addresses whose latest store was not executed, after a line. -/
def skippedAfter (skipped : R → Bool) : RamLine → R → Bool
  | .get _ _ => skipped
  | .put addr _ condition branch _ =>
    Function.update skipped (addr.eval z) (!executed (condition.eval z) branch)

end RamLine

/-- Every load reads the value of the latest executed store to its address, and what the memory
`mem` holds if there is none. -/
def GetsLatest : (R → R) → List RamLine → Prop
  | _, [] => True
  | mem, l :: ls => l.Reads z mem ∧ GetsLatest (l.memoryAfter z mem) ls

/-- No load is at an address whose latest store was not executed; `skipped` are these addresses. -/
def ReadsExecuted : (R → Bool) → List RamLine → Prop
  | _, [] => True
  | skipped, l :: ls => l.AvoidsSkipped z skipped ∧ ReadsExecuted (l.skippedAfter z skipped) ls

variable {z}

theorem ReadsExecuted.congr {z' : Name → R} {skipped : R → Bool} {ls : List RamLine}
    (hz : ∀ l ∈ ls, ∀ x ∈ l.inputs, z x = z' x) (h : ReadsExecuted z skipped ls) :
    ReadsExecuted z' skipped ls := by
  induction ls generalizing skipped with
  | nil => trivial
  | cons l ls ih =>
    obtain ⟨hl, hls⟩ := List.forall_mem_cons.mp hz
    cases l with
    | get addr value =>
      have haddr : addr.eval z = addr.eval z' := addr.eval_congr hl
      refine ⟨?_, ih hls h.2⟩
      rw [RamLine.AvoidsSkipped, ← haddr]
      exact h.1
    | put addr inValue condition branch value =>
      have haddr : addr.eval z = addr.eval z' :=
        addr.eval_congr fun x hx => hl x (List.mem_append_left _ hx)
      have hcond : condition.eval z = condition.eval z' :=
        condition.eval_congr fun x hx => hl x (List.mem_append_right _ hx)
      refine ⟨trivial, ih hls ?_⟩
      rw [RamLine.skippedAfter, ← haddr, ← hcond]
      exact h.2

/-- What a line does to the intended memory and to the skipped addresses only depends on the
variables it reads. -/
theorem RamLine.after_congr {z' : Name → R} (l : RamLine) (mem : R → R) (skipped : R → Bool)
    (hz : ∀ o ∈ l.operands, z' o = z o) :
    l.addr.eval z' = l.addr.eval z ∧ l.memoryAfter z' mem = l.memoryAfter z mem ∧
      l.skippedAfter z' skipped = l.skippedAfter z skipped := by
  cases l with
  | get addr value =>
    have haddr : addr.eval z' = addr.eval z := addr.eval_congr fun x hx =>
      hz x (by simp [RamLine.operands, RamLine.inputs, hx])
    exact ⟨haddr, rfl, rfl⟩
  | put addr inValue condition branch value =>
    obtain ⟨haddr, hin, hcond⟩ := RamLine.forall_put (P := fun a => a.eval z' =
      a.eval z) fun a ha =>
      a.eval_congr fun x hx => hz x (ha hx)
    refine ⟨haddr, ?_, ?_⟩
    · rw [RamLine.memoryAfter, RamLine.memoryAfter, haddr, hin, hcond]
    · rw [RamLine.skippedAfter, RamLine.skippedAfter, haddr, hcond]

theorem GetsLatest.congr {z' : Name → R} {mem : R → R} {ls : List RamLine}
    (hz : ∀ l ∈ ls, ∀ x ∈ l.value :: l.operands, z' x = z x) (h : GetsLatest z' mem ls) :
    GetsLatest z mem ls := by
  induction ls generalizing mem with
  | nil => trivial
  | cons l ls ih =>
    obtain ⟨hl, hls⟩ := List.forall_mem_cons.mp hz
    obtain ⟨hvalue, hops⟩ := List.forall_mem_cons.mp hl
    obtain ⟨haddr, hmem, -⟩ := l.after_congr mem (fun _ => false) hops
    refine ⟨?_, ih hls (hmem ▸ h.2)⟩
    cases l with
    | get addr value =>
      have hread : z' value = mem (addr.eval z') := h.1
      rw [RamLine.Reads, ← (show z' value = z value from hvalue), hread]
      exact congrArg mem haddr
    | put _ _ _ _ _ => trivial

end

/-! ## Soundness -/

section
variable {p : ℕ}

/-- A tuple of field elements as an access of a trace. -/
def MemOp.fieldAccess (op : MemOp (ZMod p)) : Access ℤ ℤ := (op.map fun x => (x.val : ℤ)).access

@[simp] theorem fieldAccess_ts (op : MemOp (ZMod p)) : op.fieldAccess.ts = op.ts.val := by
  simp [MemOp.fieldAccess, MemOp.access, MemOp.map]

theorem fieldAccess_load (op : MemOp (ZMod p)) : op.fieldAccess.load ↔ op.type = 0 := by
  simp [MemOp.fieldAccess, MemOp.access, MemOp.map, loadOp]

variable [Fact p.Prime] {z : Name → ZMod p} {d : Decls}

private theorem val_update {m : ℤ → ℤ} {mem : ZMod p → ZMod p} {a w : ZMod p} {b : ZMod p}
    (h : b ≠ a → m b.val = (mem b).val) :
    Function.update m (a.val : ℤ) (w.val : ℤ) b.val = (Function.update mem a w b).val := by
  by_cases hb : b = a
  · simp [hb]
  · have hval : (b.val : ℤ) ≠ a.val := fun heq =>
      hb (ZMod.val_injective p (by exact_mod_cast heq))
    rw [Function.update_of_ne hval, Function.update_of_ne hb, h hb]

variable {ls : List RamLine}

/-- In a trace that replays, the loads read the latest executed store, if none reads a skipped
one. The replayed memory and the intended one agree where the latest store was executed. -/
theorem getsLatest_of_replays {t : ℕ} {m : ℤ → ℤ} {mem : ZMod p → ZMod p} {skipped : ZMod p → Bool}
    (hm : ∀ a, skipped a = false → m a.val = (mem a).val) (hstores : ∀ l ∈ ls, l.Stores z)
    (hreplays : Replays m ((tuples z t ls).map MemOp.fieldAccess))
    (hreads : ReadsExecuted z skipped ls) : GetsLatest z mem ls := by
  induction ls generalizing t m mem skipped with
  | nil => trivial
  | cons l ls ih =>
    obtain ⟨hl, hls⟩ := List.forall_mem_cons.mp hstores
    obtain ⟨hload, hreplays⟩ := hreplays
    cases l with
    | get addr value =>
      have htype : ((RamLine.get addr value).tuple z t).fieldAccess.load := by
        simp [fieldAccess_load, RamLine.tuple, RamLine.actualType, loadOp]
      have hval : (z value).val = (mem (addr.eval z)).val := by
        have h : ((z value).val : ℤ) = (mem (addr.eval z)).val :=
          (hload htype).trans (hm _ hreads.1)
        exact_mod_cast h
      have hget : z value = mem (addr.eval z) := ZMod.val_injective p hval
      refine ⟨hget, ih (fun a ha => ?_) hls hreplays hreads.2⟩
      have h := val_update (a := addr.eval z) (w := z value) fun _ => hm a ha
      rwa [hget, Function.update_eq_self, ← hget] at h
    | put addr inValue condition branch value =>
      refine ⟨trivial, ih (fun a ha => ?_) hls hreplays hreads.2⟩
      rw [RamLine.skippedAfter] at ha
      rw [RamLine.memoryAfter]
      by_cases hex : executed (condition.eval z) branch = true
      · have hval : z value = inValue.eval z := hl hex
        rw [if_pos hex, ← hval]
        refine val_update fun (hne : a ≠ addr.eval z) => hm a ?_
        rwa [Function.update_of_ne hne] at ha
      · have hne : a ≠ addr.eval z := by
          rintro rfl
          simp [hex] at ha
        rw [if_neg hex]
        rw [Function.update_of_ne hne] at ha
        have h := val_update (a := addr.eval z) (w := z value) fun _ => hm a ha
        rwa [Function.update_of_ne hne] at h

omit [Fact p.Prime] in
/-- The tuples are in the order of time. -/
theorem tuples_ordered {t : ℕ} (hlen : t + ls.length ≤ p) :
    ((tuples z t ls).map MemOp.fieldAccess).Pairwise fun a b => a.ts < b.ts := by
  induction ls generalizing t with
  | nil => exact .nil
  | cons l ls ih =>
    simp only [List.length_cons] at hlen
    refine List.pairwise_cons.mpr ⟨fun b hb => ?_, ih (by omega)⟩
    obtain ⟨op, hop, rfl⟩ := List.mem_map.mp hb
    obtain ⟨l', -, k, hk, rfl⟩ := mem_tuples hop
    simp only [fieldAccess_ts, RamLine.tuple]
    rw [ZMod.val_natCast_of_lt (by omega), ZMod.val_natCast_of_lt (by omega)]
    omega

def OutputsPermute (z : Name → ZMod p) (width : ℕ) (inputs : List (MemOp (ZMod p))) : Prop :=
  ((List.range width).map fun i => (output i).map z).Perm inputs

omit [Fact p.Prime] in
theorem outputTrace_val (width : ℕ) : outputTrace width (fun o => ((z o).val : ℤ)) =
    ((List.range width).map fun i => (output i).map z).map MemOp.fieldAccess := by
  simp only [outputTrace, List.map_map]
  rfl

theorem outputsFit_of_permute (hp : 2 ^ 32 < p) (hlen : ls.length ≤ 2 ^ 32)
    (haddr : ∀ l ∈ ls, (l.addr.eval z).val < 2 ^ 32)
    (hperm : OutputsPermute z ls.length (tuples z 0 ls)) :
    OutputsFit p ls.length fun o => ((z o).val : ℤ) := by
  have hmem : ∀ i < ls.length, ∃ l ∈ ls, ∃ k < ls.length, (output i).map z = l.tuple z k := by
    intro i hi
    have hi : (output i).map z ∈ (List.range ls.length).map fun i => (output i).map z :=
      List.mem_map.mpr ⟨i, List.mem_range.mpr hi, rfl⟩
    obtain ⟨l, hl, k, hk, heq⟩ := mem_tuples (hperm.mem_iff.mp hi)
    exact ⟨l, hl, k, hk, by simpa using heq⟩
  refine OutputsFit.of_small 0 (by omega) le_rfl fun i hi => ?_
  obtain ⟨l, hl, k, hk, heq⟩ := hmem i hi
  have hval_lt : ∀ x : ZMod p, x.val < p := fun x => ZMod.val_lt x
  have haddr_lt : (z (output i).addr).val < 2 ^ 32 := by
    have h : z (output i).addr = l.addr.eval z := congrArg MemOp.addr heq
    exact h ▸ haddr l hl
  have hts_lt : (z (output i).ts).val < 2 ^ 32 := by
    have h : z (output i).ts = (k : ZMod p) := congrArg MemOp.ts heq
    rw [h, ZMod.val_natCast_of_lt (by omega)]
    omega
  have htype := hval_lt (z (output i).type)
  have hvalue := hval_lt (z (output i).value)
  constructor <;> simp only [MemOp.map]
  · exact Int.natCast_nonneg _
  · omega
  · exact Int.natCast_nonneg _
  · omega
  · rw [abs_of_nonneg (Int.natCast_nonneg _)]
    exact_mod_cast htype
  · exact Int.natCast_nonneg _
  · omega

/-- The network outputs satisfy the consistency constraints when the operations replay. -/
theorem replays_of_satisfies (hp : 2 ^ 66 < p) (hlen : ls.length ≤ 2 ^ 32)
    (haddr : ∀ l ∈ ls, (l.addr.eval z).val < 2 ^ 32)
    (hperm : OutputsPermute z ls.length (tuples z 0 ls))
    (hsat : Satisfies z (toBasicConstraintsLines (declareOutputs d)
      (memConsistencyLines ls.length))) :
    Replays (fun _ => 0) ((tuples z 0 ls).map MemOp.fieldAccess) := by
  have hfit := outputsFit_of_permute (lt_trans (by norm_num) hp) hlen haddr hperm
  have hchecked := checked_of_satisfies (lt_trans (by norm_num) hp)
    (fun j k => by simp) hfit hsat
  have hsorted := hchecked.sorted
  rw [outputTrace_val] at hchecked hsorted
  have h66 : 2 ^ 32 ≤ p := (lt_trans (by norm_num) hp).le
  exact (MemoryTrace.checked_iff_replays (hperm.map _) hsorted
    (tuples_ordered (by omega))).mp hchecked

end

/-! ## The cheating prover -/

section
variable {p : ℕ}

/-- The value a cheating prover chooses: one more than what the address should hold (`mean`) for a
store that is not executed, and what the latest store left (`mem`) for a load. -/
def RamLine.cheatValue (z : Name → ZMod p) (mem mean : ZMod p → ZMod p) : RamLine → ZMod p
  | .get addr _ => mem (addr.eval z)
  | .put addr inValue condition branch _ =>
    if executed (condition.eval z) branch then inValue.eval z else mean (addr.eval z) + 1

/-- The variables after the choices of the cheating prover. -/
def cheat (z : Name → ZMod p) (mem mean : ZMod p → ZMod p) : List RamLine → Name → ZMod p
  | [] => z
  | l :: ls =>
    let w := l.cheatValue z mem mean
    cheat (Function.update z l.value w) (Function.update mem (l.addr.eval z) w)
      (l.memoryAfter z mean) ls

theorem cheat_of_forall_ne {z : Name → ZMod p} {mem mean : ZMod p → ZMod p} {ls : List RamLine}
    {o : Name} (h : ∀ l ∈ ls, l.value ≠ o) : cheat z mem mean ls o = z o := by
  induction ls generalizing z mem mean with
  | nil => rfl
  | cons l ls ih =>
    obtain ⟨hl, hls⟩ := List.forall_mem_cons.mp h
    rw [cheat, ih hls, Function.update_of_ne hl.symm]

variable [Fact p.Prime] {z z' : Name → ZMod p} {mem mean : ZMod p → ZMod p}
  {skipped : ZMod p → Bool} {l : RamLine}

/-- The cheating memory is off by one at the skipped addresses. -/
private theorem cheat_skipped (hskip : ∀ a, mem a = if skipped a then mean a + 1 else mean a)
    (a : ZMod p) :
    Function.update mem (l.addr.eval z) (l.cheatValue z mem mean) a =
      if l.skippedAfter z skipped a then l.memoryAfter z mean a + 1
      else l.memoryAfter z mean a := by
  cases l with
  | get addr value =>
    have h : Function.update mem (addr.eval z) (mem (addr.eval z)) a = mem a := by
      rw [Function.update_eq_self]
    exact h.trans (hskip a)
  | put addr inValue condition branch value =>
    simp only [RamLine.skippedAfter, RamLine.memoryAfter, RamLine.cheatValue, RamLine.addr]
    by_cases ha : a = addr.eval z
    · subst ha
      by_cases hex : executed (condition.eval z) branch = true <;> simp [hex]
    · by_cases hex : executed (condition.eval z) branch = true <;> simp [hex, ha, hskip a]

private theorem cheat_stores (hz : ∀ o ∈ l.operands, z' o = z o)
    (hvalue : z' l.value = l.cheatValue z mem mean) : l.Stores z' := by
  cases l with
  | get addr value => trivial
  | put addr inValue condition branch value =>
    intro hex
    have hin : inValue.eval z' = inValue.eval z := inValue.eval_congr fun x hx =>
      hz x (by simp [RamLine.operands, RamLine.inValueVars, hx])
    have hcond : condition.eval z' = condition.eval z := condition.eval_congr fun x hx =>
      hz x (by simp [RamLine.operands, RamLine.inputs, hx])
    rw [hcond] at hex
    have h : z' value = if executed (condition.eval z) branch then inValue.eval z
      else mean (addr.eval z) + 1 := hvalue
    rw [h, if_pos hex, hin]

/-- Stores and no-ops are not loads. -/
theorem load_tuple (hp : 2 < p) {t : ℕ} (h : (l.tuple z t).fieldAccess.load) :
    ∃ addr value, l = .get addr value := by
  cases l with
  | get addr value => exact ⟨addr, value, rfl⟩
  | put addr inValue condition branch value =>
    have h0 : (((if executed (condition.eval z) branch then storeOp else noOp : ℤ)) : ZMod p) = 0 :=
      (fieldAccess_load _).mp h
    by_cases hex : executed (condition.eval z) branch = true
    · rw [if_pos hex] at h0
      exact absurd h0 (by simp [storeOp])
    · rw [if_neg hex] at h0
      exact absurd h0 (Residue.cast_ne_zero (by simpa [noOp] using hp) (by simp [noOp]))

private theorem cheat_avoids (hskip : ∀ a, mem a = if skipped a then mean a + 1 else mean a)
    (hz : ∀ o ∈ l.operands, z' o = z o) (hvalue : z' l.value = l.cheatValue z mem mean)
    (hreads : l.Reads z' mean) : l.AvoidsSkipped z' skipped := by
  cases l with
  | put addr inValue condition branch value => trivial
  | get addr value =>
    have haddr : addr.eval z' = addr.eval z := addr.eval_congr fun x hx =>
      hz x (by simp [RamLine.operands, RamLine.inputs, hx])
    have hmem : mem (addr.eval z) = mean (addr.eval z) := by
      rw [← haddr]
      have h : z' value = mem (addr.eval z) := hvalue
      rw [haddr, ← h]
      exact hreads.trans (by rw [haddr])
    have h := hskip (addr.eval z)
    rw [hmem] at h
    rw [RamLine.AvoidsSkipped, haddr]
    by_contra hskipped
    rw [if_pos (by simpa using hskipped)] at h
    exact one_ne_zero (left_eq_add.mp h)

/-- The cheating values satisfy the equations of the executed stores and replay, but they give the
loads the right values only if no load reads a skipped store. -/
theorem cheat_spec (hp : 2 < p) (mem mean : ZMod p → ZMod p) (skipped : ZMod p → Bool)
    {ls : List RamLine} (hssa : RamSsa ls) {m : ℤ → ℤ} {t : ℕ} (hm : ∀ a, m a.val = (mem a).val)
    (hskip : ∀ a, mem a = if skipped a then mean a + 1 else mean a) :
    (∀ l ∈ ls, l.Stores (cheat z mem mean ls)) ∧
      Replays m ((tuples (cheat z mem mean ls) t ls).map MemOp.fieldAccess) ∧
      (GetsLatest (cheat z mem mean ls) mean ls →
        ReadsExecuted (cheat z mem mean ls) skipped ls) := by
  induction ls generalizing z mem mean m skipped t with
  | nil => exact ⟨by simp, trivial, fun _ => trivial⟩
  | cons l ls ih =>
    have hkeep : ∀ o ∈ l.operands, cheat z mem mean (l :: ls) o = z o :=
      fun o ho => cheat_of_forall_ne (hssa.value_ne_operand ho)
    have hvalue : cheat z mem mean (l :: ls) l.value = l.cheatValue z mem mean := by
      rw [cheat, cheat_of_forall_ne hssa.value_ne, Function.update_self]
    obtain ⟨haddr, hmean, hskipped⟩ := l.after_congr mean skipped hkeep
    obtain ⟨hstores, hreplays, hwrong⟩ := ih _ _ _ hssa.tail
      (z := Function.update z l.value (l.cheatValue z mem mean)) (t := t + 1)
      (fun a => val_update fun _ => hm a) (cheat_skipped (l := l) (z := z) hskip)
    have haccess : (l.tuple (cheat z mem mean (l :: ls)) t).fieldAccess.addr =
        (l.addr.eval z).val := congrArg (fun x : ZMod p => (x.val : ℤ)) haddr
    have haccess' : (l.tuple (cheat z mem mean (l :: ls)) t).fieldAccess.value =
        (l.cheatValue z mem mean).val := congrArg (fun x : ZMod p => (x.val : ℤ)) hvalue
    refine ⟨List.forall_mem_cons.mpr ⟨cheat_stores hkeep hvalue, hstores⟩, ⟨?_, ?_⟩, ?_⟩
    · intro hload
      rw [haccess, haccess', hm]
      obtain ⟨addr, value, rfl⟩ := load_tuple hp hload
      rfl
    · rw [haccess, haccess']
      exact hreplays
    · rintro ⟨hreads, hgets⟩
      refine ⟨cheat_avoids hskip hkeep hvalue hreads, ?_⟩
      rw [hskipped]
      rw [hmean] at hgets
      exact hwrong hgets

end

/-! ## Completing an assignment -/

/-- The assignment `z` with the types of the operations `ls`. -/
def withTypes {R : Type} [CommRing R] [DecidableEq R] (z : Name → R) (ls : List RamLine) : Name → R
  | .inputType t => (ls[t]?.map fun l => ((l.actualType z : ℤ) : R)).getD 0
  | o => z o

/-- The assignment `z` with the operations `ops` on the output wires. -/
def withOutputs {R : Type} (z : Name → R) (ops : List (MemOp R)) : Name → R
  | .wire (.O i) k => (ops[i]?.map fun op => op.get k).getD (z (.wire (.O i) k))
  | o => z o

section
variable {R : Type} [CommRing R] [DecidableEq R] {z : Name → R} {ls : List RamLine}
  {ops : List (MemOp R)}

omit [CommRing R] [DecidableEq R] in
/-- Assignments that agree on the variables of the spec agree on what the lines read and assign. -/
theorem RamSsa.agree {z' : Name → R} (hssa : RamSsa ls) (hspec : ∀ s, z' (.spec s) = z (.spec s)) :
    ∀ l ∈ ls, ∀ x ∈ l.value :: l.operands, z' x = z x := by
  intro l hl x hx
  obtain ⟨s, rfl⟩ := hssa.spec l hl x hx
  exact hspec s

omit [CommRing R] [DecidableEq R] in
theorem map_output_withOutputs (z : Name → R) (ops : List (MemOp R)) :
    ((List.range ops.length).map fun i => (output i).map (withOutputs z ops)) = ops := by
  refine List.ext_getElem (by simp) fun i h h' => ?_
  simp [MemOp.map, output, withOutputs, MemOp.get, h']

theorem map_actualInputs_withTypes [Nontrivial R] {z' : Name → R} (hssa : RamSsa ls)
    (hspec : ∀ s, z' (.spec s) = z (.spec s))
    (htype : ∀ t, z' (.inputType t) = withTypes z ls (.inputType t)) :
    (actualInputs 0 ls).map (MemOp.map (Arg.eval z')) = tuples z 0 ls := by
  have hkeep := hssa.agree hspec
  rw [map_actualInputs, tuples_congr hkeep]
  intro k l hk _
  have hl : ((l.actualType z' : ℤ) : R) = (l.actualType z : ℤ) :=
    congrArg MemOp.type ((RamLine.congr (hkeep l (List.mem_of_getElem? hk))).1 0)
  rw [hl, Nat.zero_add, htype]
  simp [withTypes, hk]

end

section
variable {p : ℕ} [Fact p.Prime] {d : Decls} {z : Name → ZMod p} {ls : List RamLine}

/-- Values for which the operations replay extend to an assignment that satisfies all constraints,
with the sorted operations on the output wires. -/
theorem exists_satisfies (hp : 2 ^ 66 < p) (hlen : ls.length ≤ 2 ^ 32)
    (hssa : RamSsa ls) (haddr : ∀ l ∈ ls, (l.addr.eval z).val < 2 ^ 32)
    (hbool : ∀ l ∈ ls, l.BoolCondition z) (hstores : ∀ l ∈ ls, l.Stores z)
    (hreplays : Replays (fun _ => 0) ((tuples z 0 ls).map MemOp.fieldAccess)) :
    ∃ z', (∀ s, z' (.spec s) = z (.spec s)) ∧
      Satisfies z' (toBasicConstraintsLines (declareOutputs d) (actualInputLines 0 ls)) ∧
      Satisfies z' (toBasicConstraintsLines (declareOutputs d)
        (memConsistencyLines ls.length)) ∧
      OutputsPermute z' ls.length ((actualInputs 0 ls).map (MemOp.map (Arg.eval z'))) := by
  have h32 : 2 ^ 32 < p := lt_trans (by norm_num) hp
  have hordered : ((tuples z 0 ls).map MemOp.fieldAccess).Pairwise fun a b => a.ts < b.ts :=
    tuples_ordered (by omega)
  obtain ⟨ops, hperm, hsorted⟩ := MemoryTrace.exists_sorted MemOp.fieldAccess
    ((List.pairwise_map.mp hordered).imp fun h => h.ne)
  have hops : ops.length = ls.length := by rw [hperm.length_eq, length_tuples]
  -- the assignment before the auxiliary variables of the checks
  set z₁ := withOutputs (withTypes z ls) ops
  have hkeep₁ : ∀ l ∈ ls, ∀ x ∈ l.value :: l.operands, z₁ x = z x := hssa.agree fun _ => rfl
  have hout : ((List.range ls.length).map fun i => (output i).map z₁) = ops := by
    rw [← hops]
    exact map_output_withOutputs _ _
  have hfit : OutputsFit p ls.length fun o => ((z₁ o).val : ℤ) := by
    refine outputsFit_of_permute h32 hlen (fun l hl => ?_) ?_
    · have h : l.addr.eval z₁ = l.addr.eval z :=
        congrArg MemOp.addr ((RamLine.congr (hkeep₁ l hl)).1 0)
      exact h ▸ haddr l hl
    · rw [OutputsPermute, hout, tuples_congr hkeep₁]
      exact hperm
  have hchecked : Checked (outputTrace ls.length fun o => ((z₁ o).val : ℤ)) := by
    rw [outputTrace_val, hout]
    exact (MemoryTrace.checked_iff_replays (hperm.map _) hsorted hordered).mpr hreplays
  -- the honest worksheet computes the auxiliary variables
  let s : Prover := ⟨fun o => ((z₁ o).val : ℚ), 0, 0, fun _ => none⟩
  obtain ⟨cmds, -, hsat, hframe⟩ := memConsistency_exec (d := d) (s := s)
    (lt_trans (by norm_num) hp) (fun o _ => by simp [s]) hfit hchecked
  set z' := (execAll p cmds s).witness p
  have hz' : ∀ o, ¬ AuxOwned o → z' o = z₁ o := by
    intro o ho
    have h : z' o = toField p ((((z₁ o).val : ℤ) : ℚ)) := by
      simp only [z', Prover.witness, hframe o ho, s, Int.cast_natCast]
    rw [h, toField_intCast]
    simp
  have hspec : ∀ x, z' (.spec x) = z (.spec x) := fun x =>
    hz' _ (by rintro ⟨i, k, h | ⟨sfx, h⟩⟩ <;> cases h)
  have hkeep := hssa.agree hspec
  have hinputs : (actualInputs 0 ls).map (MemOp.map (Arg.eval z')) = tuples z 0 ls :=
    map_actualInputs_withTypes hssa hspec fun t =>
      hz' _ (by rintro ⟨i, k, h | ⟨sfx, h⟩⟩ <;> cases h)
  refine ⟨z', hspec, ?_, hsat, ?_⟩
  · refine (satisfies_actualInputLines fun l hl => ?_).mpr ⟨?_, fun l hl => ?_⟩
    · exact (RamLine.congr (hkeep l hl)).2.2.mpr (hbool l hl)
    · rw [hinputs, tuples_congr hkeep]
    · exact (RamLine.congr (hkeep l hl)).2.1.mpr (hstores l hl)
  · have hout' : ((List.range ls.length).map fun i => (output i).map z') = ops := by
      rw [← hout]
      refine List.map_congr_left fun i _ => ?_
      have hwire : ∀ k, z' (.wire (.O i) k) = z₁ (.wire (.O i) k) := fun k =>
        hz' _ (by rintro ⟨i, k, h | ⟨sfx, h⟩⟩ <;> cases h)
      simp only [MemOp.map, output, hwire]
    rw [OutputsPermute, hinputs, hout']
    exact hperm

end

/-! ## When the constraints are sound -/

/-- Every assignment with the addresses and conditions of `ρ` that satisfies the constraints, and in
which the network permutes its inputs, gives every load the value of the latest executed store. -/
def MemorySound {p : ℕ} (d : Decls) (ρ : Name → ZMod p) (ls : List RamLine) : Prop :=
  ∀ z : Name → ZMod p, (∀ l ∈ ls, ∀ x ∈ l.inputs, z x = ρ x) →
    Satisfies z (toBasicConstraintsLines (declareOutputs d) (actualInputLines 0 ls)) →
    Satisfies z (toBasicConstraintsLines (declareOutputs d) (memConsistencyLines ls.length)) →
    OutputsPermute z ls.length ((actualInputs 0 ls).map (MemOp.map (Arg.eval z))) →
    GetsLatest z (fun _ => 0) ls

section
variable {p : ℕ} [Fact p.Prime] {d : Decls} {ρ : Name → ZMod p} {ls : List RamLine}

/-- Addresses and conditions are the same in two assignments that agree on them. -/
private theorem inputs_congr {z z' : Name → ZMod p} {l : RamLine}
    (hz : ∀ x ∈ l.inputs, z' x = z x) :
    l.addr.eval z' = l.addr.eval z ∧ (l.BoolCondition z' ↔ l.BoolCondition z) := by
  cases l with
  | get addr value => exact ⟨addr.eval_congr hz, Iff.rfl⟩
  | put addr inValue condition branch value =>
    have hcond : condition.eval z' = condition.eval z :=
      condition.eval_congr fun x hx => hz x (List.mem_append_right _ hx)
    refine ⟨addr.eval_congr fun x hx => hz x (List.mem_append_left _ hx), ?_⟩
    rw [RamLine.BoolCondition, RamLine.BoolCondition, hcond]

section
variable (hp : 2 ^ 66 < p) (hlen : ls.length ≤ 2 ^ 32)
  (haddr : ∀ l ∈ ls, (l.addr.eval ρ).val < 2 ^ 32) (hbool : ∀ l ∈ ls, l.BoolCondition ρ)
include hp hlen haddr hbool

theorem memorySound_of_readsExecuted (hreads : ReadsExecuted ρ (fun _ => false) ls) :
    MemorySound d ρ ls := by
  intro z hz hactual hchecks hperm
  obtain ⟨hinputs, hstores⟩ := (satisfies_actualInputLines fun l hl =>
    (inputs_congr (hz l hl)).2.mpr (hbool l hl)).mp hactual
  rw [hinputs] at hperm
  have hreplays := replays_of_satisfies hp hlen
    (fun l hl => (inputs_congr (hz l hl)).1 ▸ haddr l hl) hperm hchecks
  exact getsLatest_of_replays (fun _ _ => by simp) hstores hreplays
    (hreads.congr fun l hl x hx => (hz l hl x hx).symm)

/-- If a load is at an address whose latest store was not executed, a cheating prover makes it read
a wrong value. -/
theorem readsExecuted_of_memorySound (hssa : RamSsa ls)
    (hfixed : ∀ l ∈ ls, ∀ l' ∈ ls, l'.value ∉ l.inputs)
    (hsound : MemorySound d ρ ls) : ReadsExecuted ρ (fun _ => false) ls := by
  have h2 : 2 < p := lt_trans (by norm_num) hp
  set z := cheat ρ (fun _ => 0) (fun _ => 0) ls
  have hz : ∀ l ∈ ls, ∀ x ∈ l.inputs, z x = ρ x := fun l hl x hx =>
    cheat_of_forall_ne fun l' hl' heq => hfixed l hl l' hl' (heq ▸ hx)
  obtain ⟨hstores, hreplays, hwrong⟩ := cheat_spec (z := ρ) (m := fun _ => 0) (t := 0) h2
    (fun _ => 0) (fun _ => 0) (fun _ => false) hssa (fun _ => by simp) (fun _ => by simp)
  obtain ⟨z', hspec, hactual, hchecks, hperm⟩ := exists_satisfies (d := d) hp hlen hssa
    (fun l hl => (inputs_congr (hz l hl)).1 ▸ haddr l hl)
    (fun l hl => (inputs_congr (hz l hl)).2.mpr (hbool l hl)) hstores hreplays
  have hspec' : ∀ l ∈ ls, ∀ x ∈ l.value :: l.operands, z' x = z x := hssa.agree hspec
  have hgets := hsound z' (fun l hl x hx => ?_) hactual hchecks hperm
  · exact (hwrong (hgets.congr hspec')).congr hz
  · rw [hspec' l hl x (List.mem_cons_of_mem _ (List.mem_append_left _ hx)), hz l hl x hx]

end

/-- The constraints are sound if every load is at an address whose latest store was executed or that
was not stored to. If the lines assign variables of their own, and these are not addresses or
conditions, they are sound only then. -/
theorem memoryConsistency_sound (hp : 2 ^ 66 < p) (hlen : ls.length ≤ 2 ^ 32)
    (haddr : ∀ l ∈ ls, (l.addr.eval ρ).val < 2 ^ 32) (hbool : ∀ l ∈ ls, l.BoolCondition ρ) :
    (ReadsExecuted ρ (fun _ => false) ls → MemorySound d ρ ls) ∧
      (RamSsa ls → (∀ l ∈ ls, ∀ l' ∈ ls, l'.value ∉ l.inputs) →
        MemorySound d ρ ls → ReadsExecuted ρ (fun _ => false) ls) :=
  ⟨memorySound_of_readsExecuted hp hlen haddr hbool,
    readsExecuted_of_memorySound hp hlen haddr hbool⟩

end

theorem prime_mersenne_89 : (mersenne 89).Prime :=
  lucas_lehmer_sufficiency 89 (by norm_num) (by norm_num)

theorem lt_mersenne_89 : 2 ^ 66 < mersenne 89 := by norm_num [mersenne]

/-- A store that is executed if `c` is `1`, and a load at the same address. -/
def storeThenLoad : List RamLine :=
  [.put (.const 0) (.const 7) (.var (.spec "c")) true (.spec "t"), .get (.const 0) (.spec "x")]

theorem memoryConsistency_sound_executed :
    MemorySound (p := mersenne 89) (intDecls 32) (fun _ => 1) storeThenLoad := by
  have : Fact (mersenne 89).Prime := ⟨prime_mersenne_89⟩
  refine (memoryConsistency_sound lt_mersenne_89 (by decide) ?_ ?_).1 ?_
  · simp [storeThenLoad, RamLine.addr]
  · simp [storeThenLoad, RamLine.BoolCondition]
  · simp [storeThenLoad, ReadsExecuted, RamLine.AvoidsSkipped, RamLine.skippedAfter, executed]

theorem memoryConsistency_unsound_skipped :
    ¬ MemorySound (p := mersenne 89) (intDecls 32) (fun _ => 0) storeThenLoad := by
  have : Fact (mersenne 89).Prime := ⟨prime_mersenne_89⟩
  intro hsound
  have hssa : RamSsa storeThenLoad := by
    constructor <;> simp [storeThenLoad, RamLine.value, RamLine.operands, RamLine.inputs,
      RamLine.inValueVars]
  have h := readsExecuted_of_memorySound lt_mersenne_89 (by decide)
    (by simp [storeThenLoad, RamLine.addr]) (by simp [storeThenLoad, RamLine.BoolCondition]) hssa
    (by simp [storeThenLoad, RamLine.value, RamLine.inputs]) hsound
  simp [storeThenLoad, ReadsExecuted, RamLine.AvoidsSkipped, RamLine.skippedAfter, executed] at h

end Pequin
