import Pequin.Backend.Spec
import Pequin.Lib.MemoryTrace

/-!
# Consistency of the sorted memory operations

The permutation network outputs the memory operations sorted by address and timestamp. The first
operation, and every pair of neighbours, is checked by a few lines of spec over the output wires.
An assignment satisfies them when the operations on the output wires are a checked trace
(`checked_of_satisfies`, `memConsistency_exec`).
-/

namespace Pequin

open MemoryTrace (Access Adjacent Checked)

/-! ## The lines -/

/-- Address, timestamp, type and value of a memory operation. -/
structure MemOp (α : Type) where
  addr : α
  ts : α
  type : α
  value : α
  deriving DecidableEq

def MemOp.map {α β : Type} (f : α → β) (op : MemOp α) : MemOp β :=
  ⟨f op.addr, f op.ts, f op.type, f op.value⟩

def MemOp.get {α : Type} (op : MemOp α) : VarType → α
  | .addr => op.addr
  | .timestamp => op.ts
  | .type => op.type
  | .value => op.value

def loadOp : ℤ := 0

def storeOp : ℤ := 1

def noOp : ℤ := 2

def output (i : ℕ) : MemOp Name :=
  ⟨.wire (.O i) .addr, .wire (.O i) .timestamp, .wire (.O i) .type, .wire (.O i) .value⟩

/-- `$V%d` after the name of the address wire, of which the source drops the last letter. -/
def MemOp.aux (op : MemOp Name) (k : ℕ) : Name := .sub op.addr (.V k)

def generateComputationFirstMemConsistency (op2 : MemOp Name) : List SpecLine :=
  let V (k : ℕ) : Arg Name := .var (op2.aux k)
  [.notEqual (.var op2.type) (.const loadOp) (op2.aux 12),
   .notEqual (.var op2.value) (.const 0) (op2.aux 13),
   .poly (some ((V 12).negSum.add (.const 1))) (some (V 13).negSum) (some (Arg.const 1).sum)
     (op2.aux 26),
   .poly none none (some ((V 26).sum.add (.const (-1)))) (op2.aux 23),
   .assertZero (op2.aux 23)]

def generateComputationPairwiseMemConsistency (op1 op2 : MemOp Name) : List SpecLine :=
  let V (k : ℕ) : Arg Name := .var (op2.aux k)
  [.less (.var op1.addr) (.var op2.addr) (op2.aux 13),
   .notEqual (.var op2.type) (.const loadOp) (op2.aux 14),
   .notEqual (.var op2.value) (.const 0) (op2.aux 15),
   .notEqual (.var op1.addr) (.var op2.addr) (op2.aux 23),
   .less (.var op1.ts) (.var op2.ts) (op2.aux 25),
   .poly (some (V 25).sum) (some ((V 23).negSum.add (.const 1))) none (op2.aux 27),
   .notEqual (.var op2.type) (.const loadOp) (op2.aux 28),
   .notEqual (.var op1.value) (.var op2.value) (op2.aux 29),
   .poly (some ((V 28).negSum.add (.const 1))) (some (V 29).negSum) (some (Arg.const 1).sum)
     (op2.aux 39),
   .poly (some (V 27).sum) (some (V 39).sum) none (op2.aux 41),
   .poly (some ((V 14).negSum.add (.const 1))) (some (V 15).negSum)
     (some ((V 41).negSum.add (.const 1))) (op2.aux 43),
   .poly (some (V 13).sum) (some (V 43).sum) (some (V 41).sum) (op2.aux 51),
   .poly none none (some ((V 51).sum.add (.const (-1)))) (op2.aux 48),
   .assertZero (op2.aux 48)]

/-- The lines for the outputs `O0`, …, `O(width-1)` of the network. A spec without memory operations
has none. -/
def memConsistencyLines : ℕ → List SpecLine
  | 0 => []
  | width + 1 =>
    generateComputationFirstMemConsistency (output 0) ++
      (List.range width).flatMap fun i =>
        generateComputationPairwiseMemConsistency (output i) (output (i + 1))

def addressWidth : ℕ := 32

def wordWidth : ℕ := 64

/-- The widths given to the output wires. -/
def naSize : VarType → ℕ
  | .addr => addressWidth
  | .timestamp => 32
  | .type => 2
  | .value => wordWidth

/-- The declarations once the output wires of the network are declared. -/
def declareOutputs (d : Decls) : Decls :=
  { d with
    varObj := fun x =>
      match x with
      | .wire (.O _) k => ⟨.uint, naSize k, 0⟩
      | x => d.varObj x }

/-! ## What the lines compute -/

/-- A memory operation with integer components, as an access of a trace. -/
def MemOp.access (op : MemOp ℤ) : Access ℤ ℤ where
  addr := op.addr
  ts := op.ts.toNat
  load := op.type = loadOp
  value := op.value

section
variable {R : Type} [CommRing R] [Nontrivial R]

/-- The value of `V26` in the lines for the first operation. -/
private theorem first_eq_one_iff {load zero : Prop} [Decidable load] [Decidable zero] :
    (-(if load then 0 else 1 : R) + 1) * -(if zero then 0 else 1) + 1 = 1 ↔ (load → zero) := by
  by_cases h : load <;> by_cases h' : zero <;> simp [h, h']

/-- The value of `V51` in the lines for two neighbours. -/
private theorem pairwise_eq_one_iff {less equal later load zero same : Prop} [Decidable less]
    [Decidable equal] [Decidable later] [Decidable load] [Decidable zero] [Decidable same]
    (hless : less → ¬ equal) :
    let V41 : R := (if later then 1 else 0) * (-(if equal then 0 else 1) + 1) *
      ((-(if load then 0 else 1) + 1) * -(if same then 0 else 1) + 1)
    (if less then 1 else 0) *
        ((-(if load then 0 else 1) + 1) * -(if zero then 0 else 1) + (-V41 + 1)) + V41 = 1 ↔
      (less ∧ (load → zero)) ∨ (equal ∧ later ∧ (load → same)) := by
  by_cases h : less
  · by_cases h3 : load <;> by_cases h4 : zero <;> simp [h, hless h, h3, h4]
  · by_cases h1 : equal <;> by_cases h2 : later <;> by_cases h3 : load <;> by_cases h5 : same <;>
      simp [h, h1, h2, h3, h5]

end

/-- The numbers on the output wires are small enough for the comparisons. -/
structure OutputsFit (p width : ℕ) (v : Name → ℤ) : Prop where
  ts_nonneg : ∀ i < width, 0 ≤ v (output i).ts
  type : ∀ i < width, |v (output i).type| < p
  value : ∀ i < width, |v (output i).value| < p
  addr_sub : ∀ i, i + 1 < width → |v (output i).addr - v (output (i + 1)).addr| ≤ 2 ^ 33
  ts_sub : ∀ i, i + 1 < width → |v (output i).ts - v (output (i + 1)).ts| ≤ 2 ^ 33
  value_sub : ∀ i, i + 1 < width → |v (output i).value - v (output (i + 1)).value| < p

/-- An operation with a small address and timestamp, and a value in a window of `p` numbers. -/
structure MemOp.Small (p : ℕ) (lo : ℤ) (op : MemOp ℤ) : Prop where
  addr_nonneg : 0 ≤ op.addr
  addr_le : op.addr ≤ 2 ^ 33
  ts_nonneg : 0 ≤ op.ts
  ts_le : op.ts ≤ 2 ^ 33
  type : |op.type| < p
  value_ge : lo ≤ op.value
  value_lt : op.value < lo + p

theorem OutputsFit.of_small {p width : ℕ} {v : Name → ℤ} (lo : ℤ) (hlo : -p < lo) (hlo0 : lo ≤ 0)
    (h : ∀ i < width, ((output i).map v).Small p lo) : OutputsFit p width v := by
  constructor
  · exact fun i hi => (h i hi).ts_nonneg
  · exact fun i hi => (h i hi).type
  · intro i hi
    have h1 := (h i hi).value_ge
    have h2 := (h i hi).value_lt
    simp only [MemOp.map] at h1 h2
    rw [abs_lt]
    omega
  · intro i hi
    obtain ⟨h1, h2, -⟩ := h i (by omega)
    obtain ⟨h3, h4, -⟩ := h (i + 1) hi
    simp only [MemOp.map] at h1 h2 h3 h4
    rw [abs_le]
    omega
  · intro i hi
    obtain ⟨-, -, h1, h2, -⟩ := h i (by omega)
    obtain ⟨-, -, h3, h4, -⟩ := h (i + 1) hi
    simp only [MemOp.map] at h1 h2 h3 h4
    rw [abs_le]
    omega
  · intro i hi
    obtain ⟨-, -, -, -, -, h1, h2⟩ := h i (by omega)
    obtain ⟨-, -, -, -, -, h3, h4⟩ := h (i + 1) hi
    simp only [MemOp.map] at h1 h2 h3 h4
    rw [abs_lt]
    omega

/-- The operations on the output wires, as a trace. -/
def outputTrace (width : ℕ) (v : Name → ℤ) : List (Access ℤ ℤ) :=
  (List.range width).map fun i => ((output i).map v).access

theorem checked_outputTrace_iff {width : ℕ} {v : Name → ℤ} : Checked (outputTrace width v) ↔
    (0 < width → v (output 0).type = loadOp → v (output 0).value = 0) ∧
      ∀ i, i + 1 < width → Adjacent ((output i).map v).access ((output (i + 1)).map v).access := by
  constructor
  · rintro ⟨hfirst, hadj⟩
    refine ⟨fun hw hload => hfirst ((output 0).map v).access ?_ hload, fun i hi => ?_⟩
    · cases width with
      | zero => exact absurd hw (lt_irrefl 0)
      | succ n => simp [outputTrace, List.range_succ_eq_map]
    · have h := List.isChain_iff_getElem.mp hadj i (by simpa [outputTrace] using hi)
      simpa [outputTrace] using h
  · rintro ⟨hfirst, hadj⟩
    constructor
    · intro a ha hload
      cases width with
      | zero => simp [outputTrace] at ha
      | succ n =>
        obtain rfl : ((output 0).map v).access = a := by
          simpa [outputTrace, List.range_succ_eq_map] using ha
        exact hfirst n.succ_pos hload
    · refine List.isChain_iff_getElem.mpr fun i hi => ?_
      simpa [outputTrace] using hadj i (by simpa [outputTrace] using hi)

section
variable {d : Decls}

theorem lessWidth_addr (i j : ℕ) :
    lessWidth (declareOutputs d) (.var (output i).addr) (.var (output j).addr) = 34 := rfl

theorem lessWidth_ts (i j : ℕ) :
    lessWidth (declareOutputs d) (.var (output i).ts) (.var (output j).ts) = 34 := rfl

end

/-! ## Soundness -/

section
variable {p : ℕ} [Fact p.Prime] {z : Name → ZMod p} {v : Name → ℤ} {d : Decls} {width : ℕ}

private theorem notEqual_cast {x y : ℤ} {t : Name} (hxy : |x - y| < p)
    (h : NotEqualWires z (x : ZMod p) (y : ZMod p) t) : z t = if x = y then 0 else 1 := by
  rw [h.output_eq]
  by_cases heq : x = y
  · simp [heq]
  · have hne : (x : ZMod p) ≠ (y : ZMod p) := fun h => heq (Residue.eq_of_cast_eq hxy h)
    simp [heq, hne]

theorem first_load_eq_zero (hz : ∀ k, z (.wire (.O 0) k) = (v (.wire (.O 0) k) : ZMod p))
    (hfit : OutputsFit p width v) (hwidth : 0 < width)
    (h : Satisfies z (toBasicConstraintsLines (declareOutputs d)
      (generateComputationFirstMemConsistency (output 0)))) :
    v (output 0).type = loadOp → v (output 0).value = 0 := by
  simp only [toBasicConstraintsLines, generateComputationFirstMemConsistency, List.flatMap_cons,
    List.flatMap_nil, SpecLine.toBasicConstraints, satisfies_append, satisfies_notEqual,
    satisfies_cons, satisfies_nil, Line.eval_mk, eval_lineC, Poly.eval_minus, Poly.eval_some,
    Poly.eval_none, Sum.eval_add, Sum.eval_negSum, Sum.eval_sum, Arg.eval_var, Arg.eval_const] at h
  obtain ⟨h12, h13, ⟨h26, -⟩, ⟨h23, -⟩, ⟨h0, -⟩, -⟩ := h
  have hty : z (output 0).type = (v (output 0).type : ZMod p) := hz .type
  have hval : z (output 0).value = (v (output 0).value : ZMod p) := hz .value
  rw [hty] at h12
  rw [hval] at h13
  have e12 := notEqual_cast (by simpa [loadOp] using hfit.type 0 hwidth) h12
  have e13 := notEqual_cast (by simpa using hfit.value 0 hwidth) h13
  refine first_eq_one_iff (R := ZMod p).mp ?_
  rw [← e12, ← e13]
  push_cast at h26 h23
  linear_combination h26 + h23 + h0

theorem neighbours_adjacent (hp : 2 ^ 36 < p) {i : ℕ}
    (hz : ∀ j k, z (.wire (.O j) k) = (v (.wire (.O j) k) : ZMod p))
    (hfit : OutputsFit p width v) (hi : i + 1 < width)
    (h : Satisfies z (toBasicConstraintsLines (declareOutputs d)
      (generateComputationPairwiseMemConsistency (output i) (output (i + 1))))) :
    Adjacent ((output i).map v).access ((output (i + 1)).map v).access := by
  simp only [toBasicConstraintsLines, generateComputationPairwiseMemConsistency,
    List.flatMap_cons, List.flatMap_nil, SpecLine.toBasicConstraints, satisfies_append,
    satisfies_notEqual,
    lessThanAsBasicConstraints_eq (d := declareOutputs d) (t := (output (i + 1)).aux 13)
      (show (toVar (declareOutputs d) (.var (output i).addr)).nb = 0 from rfl)
      (show (toVar (declareOutputs d) (.var (output (i + 1)).addr)).nb = 0 from rfl),
    lessThanAsBasicConstraints_eq (d := declareOutputs d) (t := (output (i + 1)).aux 25)
      (show (toVar (declareOutputs d) (.var (output i).ts)).nb = 0 from rfl)
      (show (toVar (declareOutputs d) (.var (output (i + 1)).ts)).nb = 0 from rfl),
    satisfies_lessThanI, lessWidth_addr, lessWidth_ts,
    satisfies_cons, satisfies_nil, Line.eval_mk, eval_lineC, Poly.eval_minus, Poly.eval_some,
    Poly.eval_none, Sum.eval_add, Sum.eval_negSum, Sum.eval_sum, Arg.eval_var, Arg.eval_const] at h
  obtain ⟨h13, h14, h15, h23, h25, ⟨h27, -⟩, h28, h29, ⟨h39, -⟩, ⟨h41, -⟩, ⟨h43, -⟩, ⟨h51, -⟩,
    ⟨h48, -⟩, ⟨h0, -⟩, -⟩ := h
  have haddr : ∀ j, z (output j).addr = (v (output j).addr : ZMod p) := fun j => hz j .addr
  have hts : ∀ j, z (output j).ts = (v (output j).ts : ZMod p) := fun j => hz j .timestamp
  have htype : ∀ j, z (output j).type = (v (output j).type : ZMod p) := fun j => hz j .type
  have hvalue : ∀ j, z (output j).value = (v (output j).value : ZMod p) := fun j => hz j .value
  have hne : |v (output i).addr - v (output (i + 1)).addr| < (p : ℤ) := by
    have h33 : (2 : ℤ) ^ 33 < p := by
      have : 2 ^ 33 < p := lt_trans (by norm_num) hp
      exact_mod_cast this
    exact (hfit.addr_sub i hi).trans_lt h33
  have hload : |v (output (i + 1)).type - loadOp| < (p : ℤ) := by
    simpa [loadOp] using hfit.type _ hi
  rw [haddr, haddr] at h13 h23
  rw [hts, hts] at h25
  rw [htype] at h14 h28
  rw [hvalue] at h15
  rw [hvalue, hvalue] at h29
  have e13 := h13.output_eq hp (hfit.addr_sub i hi)
  have e25 := h25.output_eq hp (hfit.ts_sub i hi)
  have e14 := notEqual_cast hload h14
  have e28 := notEqual_cast hload h28
  have e15 := notEqual_cast (by simpa using hfit.value _ hi) h15
  have e23 := notEqual_cast hne h23
  have e29 := notEqual_cast (hfit.value_sub i hi) h29
  -- the values of the twelve auxiliary variables, put together
  have hcheck : (v (output i).addr < v (output (i + 1)).addr ∧
        (v (output (i + 1)).type = loadOp → v (output (i + 1)).value = 0)) ∨
      (v (output i).addr = v (output (i + 1)).addr ∧ v (output i).ts < v (output (i + 1)).ts ∧
        (v (output (i + 1)).type = loadOp → v (output i).value = v (output (i + 1)).value)) := by
    refine (pairwise_eq_one_iff (R := ZMod p) fun h => h.ne).mp ?_
    rw [lessValue] at e13 e25
    rw [e28.trans e14.symm] at h39
    rw [← e13, ← e14, ← e15, ← e23, ← e25, ← e29]
    push_cast at h27 h39 h43 h48
    linear_combination h0 + h48 + h51 + z ((output (i + 1)).aux 13) * h43 +
      (1 - z ((output (i + 1)).aux 13)) * (h41 + z ((output (i + 1)).aux 39) * h27 +
        z ((output (i + 1)).aux 25) * (-z ((output (i + 1)).aux 23) + 1) * h39)
  have hts : v (output i).ts < v (output (i + 1)).ts →
      (v (output i).ts).toNat < (v (output (i + 1)).ts).toNat := by
    have h1 := hfit.ts_nonneg i (by omega)
    omega
  rcases hcheck with ⟨hlt, hval⟩ | ⟨heq, hlater, hval⟩
  · exact .inl ⟨hlt, hval⟩
  · exact .inr ⟨heq, hts hlater, hval⟩

/-- An assignment that satisfies the lines has a checked trace on the output wires. -/
theorem checked_of_satisfies (hp : 2 ^ 36 < p)
    (hz : ∀ j k, z (.wire (.O j) k) = (v (.wire (.O j) k) : ZMod p)) (hfit : OutputsFit p width v)
    (h : Satisfies z (toBasicConstraintsLines (declareOutputs d) (memConsistencyLines width))) :
    Checked (outputTrace width v) := by
  cases width with
  | zero => exact checked_outputTrace_iff.mpr ⟨fun h => absurd h (lt_irrefl 0),
      fun _ h => nomatch h⟩
  | succ width =>
    rw [memConsistencyLines, toBasicConstraintsLines, List.flatMap_append, satisfies_append] at h
    obtain ⟨hfirst, hpairs⟩ := h
    refine checked_outputTrace_iff.mpr ⟨fun hw => ?_, fun i hi => ?_⟩
    · exact first_load_eq_zero (hz 0) hfit hw hfirst
    · refine neighbours_adjacent (d := d) hp hz hfit hi ?_
      rw [List.flatMap_assoc, satisfies_flatMap] at hpairs
      exact hpairs i (List.mem_range.mpr (by omega))

end

/-! ## Completeness -/

def OutputMain : Name → Prop
  | .wire (.O _) _ => True
  | .sub (.wire (.O _) .addr) (.V _) => True
  | _ => False

section
variable {i : ℕ}

@[simp] theorem aux_inj {j k k' : ℕ} : (output i).aux k = (output j).aux k' ↔ i = j ∧ k = k' := by
  simp [output, MemOp.aux]

@[simp] theorem wire_ne_aux {j k : ℕ} {w : Wire} {t : VarType} :
    Name.wire w t ≠ (output j).aux k := by simp [MemOp.aux]

theorem first_wf : ∀ l ∈ generateComputationFirstMemConsistency (output i), l.WF OutputMain := by
  have hmain : ∀ k, OutputMain ((output i).aux k) := fun _ => trivial
  have hsub : ∀ k sfx, ¬ OutputMain (.sub ((output i).aux k) sfx) := fun _ _ => id
  have htype : OutputMain (output i).type ∧ ∀ k, (output i).type ≠ (output i).aux k :=
    ⟨trivial, fun _ => wire_ne_aux⟩
  have hvalue : OutputMain (output i).value ∧ ∀ k, (output i).value ≠ (output i).aux k :=
    ⟨trivial, fun _ => wire_ne_aux⟩
  simp [generateComputationFirstMemConsistency, SpecLine.WF, polyCalls, hmain, hsub, htype, hvalue]

theorem pairwise_wf : ∀ l ∈ generateComputationPairwiseMemConsistency (output i) (output (i + 1)),
    l.WF OutputMain := by
  have hmain : ∀ k, OutputMain ((output (i + 1)).aux k) := fun _ => trivial
  have hsub : ∀ k sfx, ¬ OutputMain (.sub ((output (i + 1)).aux k) sfx) := fun _ _ => id
  have haddr : ∀ j, OutputMain (output j).addr ∧ ∀ k, (output j).addr ≠ (output (i + 1)).aux k :=
    fun _ => ⟨trivial, fun _ => wire_ne_aux⟩
  have hts : ∀ j, OutputMain (output j).ts ∧ ∀ k, (output j).ts ≠ (output (i + 1)).aux k :=
    fun _ => ⟨trivial, fun _ => wire_ne_aux⟩
  have htype : ∀ j, OutputMain (output j).type ∧ ∀ k, (output j).type ≠ (output (i + 1)).aux k :=
    fun _ => ⟨trivial, fun _ => wire_ne_aux⟩
  have hvalue : ∀ j, OutputMain (output j).value ∧
      ∀ k, (output j).value ≠ (output (i + 1)).aux k := fun _ => ⟨trivial, fun _ => wire_ne_aux⟩
  simp [generateComputationPairwiseMemConsistency, SpecLine.WF, polyCalls, hmain, hsub, haddr, hts,
    htype, hvalue]

/-- The line assigns an auxiliary variable of the output `i`, from these and from wires. -/
def InBlock (i : ℕ) (l : SpecLine) : Prop :=
  (∀ t ∈ l.target, ∃ k, t = (output i).aux k) ∧
    ∀ o ∈ l.operands, (∃ w k, o = .wire w k) ∨ ∃ k, o = (output i).aux k

theorem first_inBlock : ∀ l ∈ generateComputationFirstMemConsistency (output i), InBlock i l := by
  simp [generateComputationFirstMemConsistency, InBlock, SpecLine.target, SpecLine.operands, output,
    MemOp.aux]

theorem pairwise_inBlock :
    ∀ l ∈ generateComputationPairwiseMemConsistency (output i) (output (i + 1)),
      InBlock (i + 1) l := by
  simp [generateComputationPairwiseMemConsistency, InBlock, SpecLine.target, SpecLine.operands,
    output, MemOp.aux]

/-- Lines for different outputs assign different variables. -/
theorem InBlock.ssa {j : ℕ} {l l' : SpecLine} (hl : InBlock i l) (hl' : InBlock j l')
    (hij : i ≠ j) : ∀ t ∈ l'.target, t ∉ l.operands ∧ l.target ≠ some t := by
  intro t ht
  obtain ⟨k, rfl⟩ := hl'.1 t ht
  constructor
  · intro hop
    rcases hl.2 _ hop with ⟨w, k', hw⟩ | ⟨k', hk⟩
    · exact wire_ne_aux hw.symm
    · exact hij (aux_inj.mp hk).1.symm
  · intro htarget
    obtain ⟨k', hk⟩ := hl.1 _ htarget
    exact hij (aux_inj.mp hk).1.symm

theorem memConsistencyLines_wf (width : ℕ) : Spec.WF OutputMain (memConsistencyLines width) := by
  rcases width with _ | width
  · exact ⟨nofun, .nil⟩
  constructor
  · intro l hl
    rcases List.mem_append.mp hl with hl | hl
    · exact first_wf l hl
    · obtain ⟨i, -, hl⟩ := List.mem_flatMap.mp hl
      exact pairwise_wf l hl
  · refine List.pairwise_append.mpr ⟨?_, List.pairwise_flatMap.mpr ⟨fun i _ => ?_, ?_⟩, ?_⟩
    · simp [generateComputationFirstMemConsistency, SpecLine.target, SpecLine.operands, output,
        MemOp.aux]
    · simp [generateComputationPairwiseMemConsistency, SpecLine.target, SpecLine.operands, output,
        MemOp.aux]
    · refine List.pairwise_lt_range.imp fun {i j} hij l hl l' hl' => ?_
      exact (pairwise_inBlock l hl).ssa (pairwise_inBlock l' hl') (by omega)
    · intro l hl l' hl'
      obtain ⟨i, -, hl'⟩ := List.mem_flatMap.mp hl'
      exact (first_inBlock l hl).ssa (pairwise_inBlock l' hl') i.succ_ne_zero.symm

section
variable {p width : ℕ} {v : Name → ℤ} {d : Decls}

theorem first_fits (hfit : OutputsFit p width v) (hwidth : 0 < width)
    (hload : v (output 0).type = loadOp → v (output 0).value = 0) :
    Spec.Fits d p v (generateComputationFirstMemConsistency (output 0)) := by
  have htype : |v (output 0).type - loadOp| < p := by simpa [loadOp] using hfit.type 0 hwidth
  have hvalue : |v (output 0).value - 0| < p := by simpa using hfit.value 0 hwidth
  have hne : ∀ j k, (output j).type ≠ (output 0).aux k ∧ (output j).value ≠ (output 0).aux k :=
    fun _ _ => ⟨wire_ne_aux, wire_ne_aux⟩
  simp only [generateComputationFirstMemConsistency, Spec.Fits, SpecLine.Fits, SpecLine.interp,
    Poly.eval_some, Poly.eval_none, Sum.eval_add, Sum.eval_negSum, Sum.eval_sum, Arg.eval_var,
    Arg.eval_const]
  simp only [ne_eq, aux_inj, hne, not_false_eq_true, Function.update_of_ne, Function.update_self,
    true_and, and_true, Int.cast_id, Nat.reduceEqDiff]
  refine ⟨htype, hvalue, ?_⟩
  rw [zero_mul, zero_add, add_neg_eq_zero]
  exact first_eq_one_iff.mpr hload

theorem pairwise_fits (hp : 2 ^ 33 < p) (hfit : OutputsFit p width v) (hi : i + 1 < width)
    (hadj : Adjacent ((output i).map v).access ((output (i + 1)).map v).access) :
    Spec.Fits (declareOutputs d) p v
      (generateComputationPairwiseMemConsistency (output i) (output (i + 1))) := by
  have htype : |v (output (i + 1)).type - loadOp| < p := by simpa [loadOp] using hfit.type _ hi
  have hvalue : |v (output (i + 1)).value - 0| < p := by simpa using hfit.value _ hi
  have haddr := hfit.addr_sub i hi
  have haddr' : |v (output i).addr - v (output (i + 1)).addr| < p :=
    haddr.trans_lt (by exact_mod_cast hp)
  have hts : (v (output i).ts).toNat < (v (output (i + 1)).ts).toNat →
      v (output i).ts < v (output (i + 1)).ts := by omega
  have hvar : ∀ (x : Name) (c : Arg Name), ¬ DistinctConstants (.var x) c := by
    rintro x c ⟨c₀, c₁, h, -⟩
    cases h
  have hnb : ∀ j, ((declareOutputs d).varObj (output j).addr).nb = 0 ∧
      ((declareOutputs d).varObj (output j).ts).nb = 0 := fun _ => ⟨rfl, rfl⟩
  have hne : ∀ j k, (output j).addr ≠ (output (i + 1)).aux k ∧
      (output j).ts ≠ (output (i + 1)).aux k ∧ (output j).type ≠ (output (i + 1)).aux k ∧
      (output j).value ≠ (output (i + 1)).aux k :=
    fun _ _ => ⟨wire_ne_aux, wire_ne_aux, wire_ne_aux, wire_ne_aux⟩
  simp only [generateComputationPairwiseMemConsistency, Spec.Fits, SpecLine.Fits, SpecLine.interp,
    Poly.eval_some, Poly.eval_none, Sum.eval_add, Sum.eval_negSum, Sum.eval_sum, Arg.eval_var,
    Arg.eval_const, toVar_var, lessWidth_addr, lessWidth_ts, hvar, hnb, lessValue]
  simp only [ne_eq, aux_inj, hne, not_false_eq_true, Function.update_of_ne, Function.update_self,
    true_and, and_true, Int.cast_id, Nat.reduceEqDiff, and_false]
  refine ⟨haddr, htype, hvalue, haddr', hfit.ts_sub i hi, htype, hfit.value_sub i hi, ?_⟩
  rw [zero_mul, zero_add, add_neg_eq_zero]
  simp only [add_zero]
  exact (pairwise_eq_one_iff fun h => h.ne).mpr
    (hadj.imp_right fun hlater => ⟨hlater.1, hts hlater.2.1, hlater.2.2⟩)

/-- The lines only assign auxiliary variables. -/
theorem interpAll_wire {ls : List SpecLine} {w : Wire} {k : VarType}
    (h : ∀ l ∈ ls, ∃ i, InBlock i l) : interpAll v ls (.wire w k) = v (.wire w k) := by
  refine interpAll_of_forall_target_ne fun l hl htarget => ?_
  obtain ⟨i, hblock⟩ := h l hl
  obtain ⟨k', hk⟩ := hblock.1 _ htarget
  exact wire_ne_aux hk

theorem OutputsFit.congr {v' : Name → ℤ} (hfit : OutputsFit p width v)
    (h : ∀ i k, v' (.wire (.O i) k) = v (.wire (.O i) k)) : OutputsFit p width v' := by
  have haddr : ∀ i, v' (output i).addr = v (output i).addr := fun i => h i .addr
  have hts : ∀ i, v' (output i).ts = v (output i).ts := fun i => h i .timestamp
  have htype : ∀ i, v' (output i).type = v (output i).type := fun i => h i .type
  have hvalue : ∀ i, v' (output i).value = v (output i).value := fun i => h i .value
  obtain ⟨h1, h2, h3, h4, h5, h6⟩ := hfit
  constructor <;> simp only [haddr, hts, htype, hvalue] <;> assumption

theorem map_output_congr {v' : Name → ℤ} (h : ∀ i k, v' (.wire (.O i) k) = v (.wire (.O i) k))
    (i : ℕ) : (output i).map v' = (output i).map v := by
  simp only [MemOp.map, output, h]

theorem pairs_fit (hp : 2 ^ 33 < p) (hfit : OutputsFit p width v) {is : List ℕ}
    (his : ∀ i ∈ is, i + 1 < width ∧
      Adjacent ((output i).map v).access ((output (i + 1)).map v).access) :
    Spec.Fits (declareOutputs d) p v (is.flatMap fun i =>
      generateComputationPairwiseMemConsistency (output i) (output (i + 1))) := by
  induction is generalizing v with
  | nil => trivial
  | cons i is ih =>
    obtain ⟨⟨hi, hadj⟩, his⟩ := List.forall_mem_cons.mp his
    have hkeep : ∀ j k, interpAll v
        (generateComputationPairwiseMemConsistency (output i) (output (i + 1))) (.wire (.O j) k) =
        v (.wire (.O j) k) :=
      fun j k => interpAll_wire fun l hl => ⟨_, pairwise_inBlock l hl⟩
    rw [List.flatMap_cons, Spec.fits_append]
    refine ⟨pairwise_fits hp hfit hi hadj, ih (hfit.congr hkeep) fun j hj => ?_⟩
    rw [map_output_congr hkeep, map_output_congr hkeep]
    exact his j hj

theorem memConsistencyLines_fits (hp : 2 ^ 33 < p) (hfit : OutputsFit p width v)
    (hchecked : Checked (outputTrace width v)) :
    Spec.Fits (declareOutputs d) p v (memConsistencyLines width) := by
  obtain ⟨hfirst, hadj⟩ := checked_outputTrace_iff.mp hchecked
  rcases width with _ | width
  · trivial
  have hkeep : ∀ j k, interpAll v (generateComputationFirstMemConsistency (output 0))
      (.wire (.O j) k) = v (.wire (.O j) k) :=
    fun j k => interpAll_wire fun l hl => ⟨_, first_inBlock l hl⟩
  rw [memConsistencyLines, Spec.fits_append]
  refine ⟨first_fits hfit width.succ_pos (hfirst width.succ_pos),
    pairs_fit hp (hfit.congr hkeep) fun i hi => ?_⟩
  have hi : i + 1 < width + 1 := Nat.succ_lt_succ (List.mem_range.mp hi)
  rw [map_output_congr hkeep, map_output_congr hkeep]
  exact ⟨hi, hadj i hi⟩

/-- A variable the worksheet of the lines writes. -/
def AuxOwned (o : Name) : Prop := ∃ i k, ((output i).aux k).Owned o

/-- From output wires that hold a checked trace, the worksheet of the lines completes the assignment
to one that satisfies them, and changes auxiliary variables only. -/
theorem memConsistency_exec [Fact p.Prime] {s : Prover} (hp : 2 ^ 33 < p)
    (hs : s.Agrees OutputMain v) (hfit : OutputsFit p width v)
    (hchecked : Checked (outputTrace width v)) :
    ∃ cmds, generateComputationLines (declareOutputs d) (memConsistencyLines width) = some cmds ∧
      Satisfies ((execAll p cmds s).witness p)
        (toBasicConstraintsLines (declareOutputs d) (memConsistencyLines width)) ∧
      ∀ o, ¬ AuxOwned o → (execAll p cmds s).vals o = s.vals o := by
  have hwf := memConsistencyLines_wf width
  obtain ⟨cmds, hgen, hexec⟩ :=
    Spec.exec hwf hs (memConsistencyLines_fits (d := d) hp hfit hchecked)
  refine ⟨cmds, hgen, hexec.satisfies, fun o ho => hexec.frame o fun l hl hw => ho ?_⟩
  obtain ⟨t, htarget, -, hot⟩ := SpecLine.writes_cases (hwf.lines l hl) hw
  obtain ⟨i, hblock⟩ : ∃ i, InBlock i l := by
    rcases width with _ | width
    · cases hl
    rcases List.mem_append.mp hl with hl | hl
    · exact ⟨0, first_inBlock l hl⟩
    · obtain ⟨i, -, hl⟩ := List.mem_flatMap.mp hl
      exact ⟨i + 1, pairwise_inBlock l hl⟩
  obtain ⟨k, rfl⟩ := hblock.1 t htarget
  exact ⟨i, k, hot.imp_right And.right⟩

end

end

end Pequin
