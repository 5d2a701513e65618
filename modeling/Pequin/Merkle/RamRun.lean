import Pequin.Merkle.PathSoundness

/-!
# The reads and writes of a program

The backend expands the reads and writes of a spec one after the other. Each of them gets a template
with inner variables of its own. A write declares new variables for the hash of the database, and
the operations after it start from these. So in an assignment that satisfies the expanded spec the
roots are linked, and every read finds what the latest write has left (`reads_latest`).
-/

namespace Pequin.Merkle
open Generator TwosComplement HashTree

/-! ## The expansion -/

/-- A variable of the expanded spec: one of the program, `CONST_TO_VAR_…` of a constant,
`RAMGET_PAD_n`, `DB_HASH_n_i`, and an inner variable of the template of `EXTERN … n`. What a
template would name without having declared it is `unknown`. -/
inductive SpecVar (ν : Type) where
  | program (x : ν)
  | constToVar (c : ℤ)
  | pad (numRamgets : ℕ)
  | dbHash (hashVarSet i : ℕ)
  | internal (subst n : ℕ)
  | unknown (subst : ℕ) (v : Ext)

inductive Operand (ν : Type) where
  | var (x : ν)
  | const (c : ℤ)

/-- A line `RAMGET` or `RAMPUT`, which lists the variables of its bits. -/
structure RamOp (ν : Type) where
  isPut : Bool
  index : Operand ν
  bitVars : List (Operand ν)

/-- The global variables of the expansion; `dbHashVars` is the number of a set of hash variables. -/
structure ExpandState where
  constVars : List ℤ
  dbHashVars : ℕ
  numHashVarSets : ℕ
  numRamgets : ℕ
  numSubsts : ℕ

/-- The hash of the database at the start is an input. -/
def insertDbHashInputs : ExpandState := ⟨[], 0, 1, 0, 0⟩

/-- A template with the table of its names. -/
structure Extern (ν : Type) where
  op : Op
  index : SpecVar ν
  values : List (SpecVar ν)
  inHash : ℕ
  outHash : Option ℕ
  subst : ℕ

section
variable {ν : Type}

def Operand.toVar : Operand ν → SpecVar ν
  | .var x => .program x
  | .const c => .constToVar c

/-- The constants that have a variable, after `const_to_var`. -/
def constToVar (constVars : List ℤ) : Operand ν → List ℤ
  | .const c => if c ∈ constVars then constVars else constVars ++ [c]
  | .var _ => constVars

def constsToVars (constVars : List ℤ) (vals : List (Operand ν)) : List ℤ :=
    vals.foldl constToVar constVars

/-- `ram_subst`, and the offset of the inner variables. -/
def Extern.ramSubst (e : Extern ν) : Var → SpecVar ν
  | .fresh n => .internal e.subst n
  | .ext .index => e.index
  | .ext (.value i) => e.values.getD i (.unknown e.subst (.value i))
  | .ext (.inHash i) => .dbHash e.inHash i
  | .ext (.outHash i) => e.outHash.elim (.unknown e.subst (.outHash i)) (.dbHash · i)

variable (cellNumBits : ℕ)

/-- `expand_ramget` and `expand_ramput`. Too many bits are an error. A list of bits is filled up
with one new variable in a read, and with the constant `0` in a write. -/
def expandRam (st : ExpandState) (op : RamOp ν) : Option (Extern ν × ExpandState) :=
  let missing := cellNumBits - op.bitVars.length
  if op.bitVars.length > cellNumBits then none
  else if op.isPut then
    let bitVars := op.bitVars ++ List.replicate missing (.const 0)
    some (⟨.putBits, op.index.toVar, bitVars.map Operand.toVar, st.dbHashVars,
        some st.numHashVarSets, st.numSubsts⟩,
      { st with
        constVars := constsToVars (constToVar st.constVars op.index) bitVars
        dbHashVars := st.numHashVarSets
        numHashVarSets := st.numHashVarSets + 1
        numSubsts := st.numSubsts + 1 })
  else
    some (⟨.getBits, op.index.toVar,
        op.bitVars.map Operand.toVar ++ List.replicate missing (.pad st.numRamgets), st.dbHashVars,
        none, st.numSubsts⟩,
      { st with
        constVars := constsToVars (constToVar st.constVars op.index) op.bitVars
        numRamgets := st.numRamgets + 1
        numSubsts := st.numSubsts + 1 })

/-- `expand_db_ops_in_spec`, on the lines that are reads and writes. -/
def expandDbOps (st : ExpandState) : List (RamOp ν) → Option (List (Extern ν) × ExpandState)
  | [] => some ([], st)
  | op :: ops => do
    let (e, st) ← expandRam cellNumBits st op
    let (es, st) ← expandDbOps st ops
    some (e :: es, st)

/-! ## The memory of a run -/

section
variable {p : ℕ} (z : SpecVar ν → ZMod p)

def Operand.eval : Operand ν → ZMod p
  | .var x => z (.program x)
  | .const c => c

/-- The expanded spec holds: the variables of constants have their values, and the templates hold
under their names. -/
structure SpecHolds (h : Hasher) (l : ℕ) (es : List (Extern ν)) (st : ExpandState) : Prop where
  consts : ∀ c ∈ st.constVars, z (.constToVar c) = c
  externs : ∀ e ∈ es, Satisfies (z ∘ e.ramSubst) (template h (2 ^ l) cellNumBits e.op)

/-- A set of hash variables holds the root of the tree of height `l` over the cells. -/
def HoldsRoot {h : Hasher} (S : h.Spec) (l hashVarSet : ℕ) (cells : ℕ → List ℤ) : Prop :=
  (List.range h.numElts).map (fun i => z (.dbHash hashVarSet i)) =
    (pack h.numElts (treeHash S cells l 0)).map Int.cast

variable (l : ℕ)

/-- The cell that an operation accesses: only the low bits of its index count. -/
def RamOp.address (op : RamOp ν) : ℕ := (op.index.eval z).val % 2 ^ l

def RamOp.stored (op : RamOp ν) : List ℤ :=
  op.bitVars.map (fun v => if v.eval z = 1 then 1 else 0) ++
    List.replicate (cellNumBits - op.bitVars.length) 0

def RamOp.run (op : RamOp ν) (cells : ℕ → List ℤ) : ℕ → List ℤ :=
  if op.isPut then Function.update cells (op.address z l) (op.stored cellNumBits z) else cells

def runOps (cells : ℕ → List ℤ) (ops : List (RamOp ν)) : ℕ → List ℤ :=
  ops.foldl (fun cells op => op.run cellNumBits z l cells) cells

/-- A read has the first bits of the cell. -/
def RamOp.Reads (op : RamOp ν) (cells : ℕ → List ℤ) : Prop :=
  op.isPut = false → op.bitVars.map (Operand.eval z) =
    ((cells (op.address z l)).take op.bitVars.length).map Int.cast

/-- Every read finds the cells as the writes before have left them. -/
def ReadsLatest : (ℕ → List ℤ) → List (RamOp ν) → Prop
  | _, [] => True
  | cells, op :: ops => op.Reads z l cells ∧ ReadsLatest (op.run cellNumBits z l cells) ops

/-- The variables that are hashed are bits, and there are no collisions, at each operation with the
cells at that time. -/
def CleanRun [Fact p.Prime] {h : Hasher} (S : h.Spec) :
    (ℕ → List ℤ) → List (RamOp ν) → List (Extern ν) → Prop
  | cells, op :: ops, e :: es =>
    (∀ w ∈ (template h (2 ^ l) cellNumBits e.op).val.vars, z (e.ramSubst w) = 0 ∨ z (e.ramSubst w) =
    1) ∧ (∀ w ∈ genVars cellNumBits .value, z (e.ramSubst w) = 0 ∨ z (e.ramSubst w) = 1) ∧
    NoCollision S cells l (z ∘ e.ramSubst) (.ext .index) (template h (2 ^ l) cellNumBits e.op).val ∧
    CleanRun S (op.run cellNumBits z l cells) ops es
  | _, _, _ => True

end

/-! ## Constants -/

theorem subset_constToVar (known : List ℤ) (v : Operand ν) : known ⊆ constToVar known v := by
  cases v with
  | var x => exact List.Subset.refl _
  | const c =>
    rw [constToVar]
    split
    · exact List.Subset.refl _
    · exact List.subset_append_left _ _

theorem mem_constToVar (known : List ℤ) (c : ℤ) : c ∈ constToVar known (.const c : Operand ν) := by
  rw [constToVar]
  split
  · assumption
  · exact List.mem_append_right _ List.mem_cons_self

theorem subset_constsToVars (known : List ℤ) (vals : List (Operand ν)) :
    known ⊆ constsToVars known vals := by
  induction vals generalizing known with
  | nil => exact List.Subset.refl _
  | cons v vals ih => exact List.Subset.trans (subset_constToVar known v) (ih _)

theorem mem_constsToVars {vals : List (Operand ν)} {c : ℤ} (h : .const c ∈ vals) (known : List ℤ) :
    c ∈ constsToVars known vals := by
  induction vals generalizing known with
  | nil => cases h
  | cons v vals ih =>
    rcases List.mem_cons.1 h with rfl | h
    · exact subset_constsToVars _ vals (mem_constToVar known c)
    · exact ih h _

section
variable {cellNumBits} {st st' : ExpandState} {op : RamOp ν} {e : Extern ν}

theorem expandRam_cases (h : expandRam cellNumBits st op = some (e, st')) :
    op.bitVars.length ≤ cellNumBits ∧ e.index = op.index.toVar ∧ e.inHash = st.dbHashVars ∧
    ((op.isPut = true ∧ e.op = .putBits ∧ e.outHash = some st'.dbHashVars ∧ ∃ bitVars,
        bitVars = op.bitVars ++ List.replicate (cellNumBits - op.bitVars.length) (.const 0) ∧
        e.values = bitVars.map Operand.toVar ∧
        st'.constVars = constsToVars (constToVar st.constVars op.index) bitVars) ∨
      (op.isPut = false ∧ e.op = .getBits ∧ st'.dbHashVars = st.dbHashVars ∧
        e.values = op.bitVars.map Operand.toVar ++
          List.replicate (cellNumBits - op.bitVars.length) (.pad st.numRamgets) ∧
        st'.constVars = constsToVars (constToVar st.constVars op.index) op.bitVars)) := by
  rw [expandRam] at h
  split at h
  · cases h
  next hle =>
  split at h
  · next hput =>
    cases h
    exact ⟨not_lt.1 hle, rfl, rfl, .inl ⟨hput, rfl, rfl, _, rfl, rfl, rfl⟩⟩
  · next hput =>
    cases h
    exact ⟨not_lt.1 hle, rfl, rfl, .inr ⟨Bool.eq_false_iff.2 hput, rfl, rfl, rfl, rfl⟩⟩

theorem subset_constVars (h : expandRam cellNumBits st op = some (e, st')) :
    constToVar st.constVars op.index ⊆ st'.constVars := by
  obtain ⟨-, -, -, ⟨-, -, -, _, -, -, hst⟩ | ⟨-, -, -, -, hst⟩⟩ := expandRam_cases h <;>
    exact hst ▸ subset_constsToVars _ _

theorem subset_constVars_ops {ops : List (RamOp ν)} {es : List (Extern ν)}
    (h : expandDbOps cellNumBits st ops = some (es, st')) : st.constVars ⊆ st'.constVars := by
  induction ops generalizing st es with
  | nil =>
    cases h
    exact List.Subset.refl _
  | cons op ops ih =>
    simp only [expandDbOps, Option.bind_eq_bind, Option.bind_eq_some_iff] at h
    obtain ⟨⟨e, st₁⟩, hop, ⟨es, st₂⟩, hops, h⟩ := h
    cases h
    exact List.Subset.trans (subset_constToVar _ op.index)
      (List.Subset.trans (subset_constVars hop) (ih hops))

/-! ## One operation -/

variable {p : ℕ} {z : SpecVar ν → ZMod p}

theorem eval_toVar {constVars : List ℤ} (hconsts : ∀ c ∈ constVars, z (.constToVar c) = c)
    {v : Operand ν} (hv : ∀ c, v = .const c → c ∈ constVars) : z v.toVar = v.eval z := by
  cases v with
  | var x => rfl
  | const c => exact hconsts c (hv c rfl)

theorem map_toVar {known constVars : List ℤ} {vals : List (Operand ν)}
    (hconsts : ∀ c ∈ constVars, z (.constToVar c) = c)
    (hvals : constVars = constsToVars known vals) :
    (vals.map Operand.toVar).map z = vals.map (Operand.eval z) := by
  rw [List.map_map]
  refine List.map_congr_left fun v hv => eval_toVar hconsts fun c hc => ?_
  exact hvals ▸ mem_constsToVars (hc ▸ hv) _

theorem map_values (hlen : e.values.length = cellNumBits) :
    (genVars cellNumBits .value).map (z ∘ e.ramSubst) = e.values.map z := by
  refine List.ext_getElem (by simp [genVars, hlen]) fun i h1 h2 => ?_
  have hi : i < e.values.length := by simpa using h2
  simp [genVars, Extern.ramSubst, hi]

variable (hexpand : expandRam cellNumBits st op = some (e, st'))
  (hconsts : ∀ c ∈ st'.constVars, z (.constToVar c) = c)
include hexpand hconsts

theorem index_eq : (z ∘ e.ramSubst) (.ext .index) = op.index.eval z := by
  obtain ⟨-, hindex, -⟩ := expandRam_cases hexpand
  rw [Function.comp_apply, Extern.ramSubst, hindex]
  refine eval_toVar hconsts fun c hc => subset_constVars hexpand ?_
  exact hc ▸ mem_constToVar st.constVars c

theorem read_eq (hget : op.isPut = false) :
    ((genVars cellNumBits .value).map (z ∘ e.ramSubst)).take op.bitVars.length =
      op.bitVars.map (Operand.eval z) := by
  obtain ⟨hle, -, -, ⟨hput, -⟩ | ⟨-, -, -, hvals, hst⟩⟩ := expandRam_cases hexpand
  · rw [hget] at hput
    cases hput
  have hlen : e.values.length = cellNumBits := by simp [hvals, hle]
  rw [map_values hlen, hvals, List.map_append, map_toVar hconsts hst, List.take_left' (by simp)]

theorem stored_eq [Fact p.Prime] (hput : op.isPut = true) :
    bitsHeld (z ∘ e.ramSubst) (genVars cellNumBits .value) = op.stored cellNumBits z := by
  obtain ⟨hle, -, -, ⟨-, -, -, vals, hbits, hvals, hst⟩ | ⟨hget, -⟩⟩ := expandRam_cases hexpand
  · have hlen : e.values.length = cellNumBits := by simp [hvals, hbits, hle]
    calc bitsHeld (z ∘ e.ramSubst) (genVars cellNumBits .value)
        = ((genVars cellNumBits .value).map (z ∘ e.ramSubst)).map fun x => if x = 1 then 1 else 0 :=
          by rw [bitsHeld, List.map_map]; rfl
      _ = (vals.map (Operand.eval z)).map fun x => if x = 1 then 1 else 0 := by
          rw [map_values hlen, hvals, map_toVar hconsts hst]
      _ = op.stored cellNumBits z := by simp [hbits, RamOp.stored, Operand.eval, Function.comp_def]
  · rw [hput] at hget
    cases hget

variable [Fact p.Prime] {h : Hasher} {S : h.Spec} {l : ℕ} {cells : ℕ → List ℤ} (hS : S.Computes p)
  (hp : 2 ^ (l + 1) < p) (hroot : HoldsRoot z S l st.dbHashVars cells)
include hS hp hroot

/-- A read or write does to the root what it does to the cells. -/
theorem expandRam_sound (hz : OverTree S l cellNumBits e.op cells (z ∘ e.ramSubst)) :
    op.Reads z l cells ∧ HoldsRoot z S l st'.dbHashVars (op.run cellNumBits z l cells) := by
  have hindex := index_eq hexpand hconsts
  have hstored := stored_eq hexpand hconsts
  have hread := read_eq hexpand hconsts
  obtain ⟨-, -, -, ⟨hput, hop, hout, -⟩ | ⟨hget, hop, hst, -⟩⟩ := expandRam_cases hexpand
  · rw [hop] at hz
    obtain ⟨hopen, hnew⟩ := hz.opened_putBits hS hp
    rw [hopen.update_eq hz.root hz.noCollision, hindex, hstored hput] at hnew
    refine ⟨fun hget => absurd (hput.symm.trans hget) (by decide), ?_⟩
    rw [HoldsRoot, RamOp.run, if_pos hput, RamOp.address, ← hnew]
    simp [genVars, Extern.ramSubst, hout]
  · rw [hop] at hz
    obtain ⟨hleaf, hopen⟩ := hz.opened_getBits hS hp
    rw [← hleaf] at hopen
    have hcell := (hopen.cell_eq hz.root hz.noCollision).1
    rw [hleaf, hindex] at hcell
    have hvals : (genVars cellNumBits .value).map (z ∘ e.ramSubst) =
      (cells (op.address z l)).map Int.cast :=
      (holds_bitsHeld hz.values).trans (congrArg (List.map Int.cast) hcell)
    refine ⟨fun _ => by rw [← hread hget, hvals, List.map_take], ?_⟩
    rw [RamOp.run, hget, hst]
    exact hroot

/-! ## Whole runs -/

omit hexpand hconsts in
/-- In an assignment that satisfies the expanded spec, every read has what the writes before it have
left in the cell, and the last hash variables hold the root of the cells at the end. -/
theorem reads_latest {ops : List (RamOp ν)} {es : List (Extern ν)}
    (hexpand : expandDbOps cellNumBits st ops = some (es, st'))
    (hz : SpecHolds cellNumBits z h l es st') (hclean : CleanRun cellNumBits z l S cells ops es) :
    ReadsLatest cellNumBits z l cells ops ∧
      HoldsRoot z S l st'.dbHashVars (runOps cellNumBits z l cells ops) := by
  induction ops generalizing st es cells with
  | nil =>
    cases hexpand
    exact ⟨trivial, hroot⟩
  | cons op ops ih =>
    simp only [expandDbOps, Option.bind_eq_bind, Option.bind_eq_some_iff] at hexpand
    obtain ⟨⟨e, st₁⟩, hop, ⟨es, st₂⟩, hops, hexpand⟩ := hexpand
    cases hexpand
    obtain ⟨hsupplied, hvalues, hnc, hclean⟩ := hclean
    have hinHash : e.inHash = st.dbHashVars := (expandRam_cases hop).2.2.1
    have hover : OverTree S l cellNumBits e.op cells (z ∘ e.ramSubst) :=
      { satisfies := hz.externs e List.mem_cons_self
        root := by
          rw [Holds, ← hroot, ← hinHash, genVars, List.map_map]
          rfl
        supplied := hsupplied
        values := hvalues
        noCollision := hnc }
    have hconsts : ∀ c ∈ st₁.constVars, z (.constToVar c) = c :=
      fun c hc => hz.consts c (subset_constVars_ops hops hc)
    obtain ⟨hread, hroot₁⟩ := expandRam_sound hop hconsts hS hp hroot hover
    have hrest := ih hroot₁ hops ⟨hz.consts, fun e he => hz.externs e (List.mem_cons_of_mem _ he)⟩
      hclean
    exact ⟨⟨hread, hrest.1⟩, hrest.2⟩

end

end

/-! ## A write and a read -/

/-- Variable `1` is written to the cell that variable `0` numbers, which is then read to variable
`2`. -/
def writeThenRead : List (RamOp ℕ) := [⟨true, .var 0, [.var 1]⟩, ⟨false, .var 0, [.var 2]⟩]

/-- The assignment of the program from one for each template. -/
def joined {p : ℕ} (z z' : Var → ZMod p) : SpecVar ℕ → ZMod p
  | .program 0 => z (.ext .index)
  | .program 1 => z (.ext (.value 0))
  | .program _ => z' (.ext (.value 0))
  | .dbHash 0 i => z (.ext (.inHash i))
  | .dbHash _ i => z' (.ext (.inHash i))
  | .internal 0 n => z (.fresh n)
  | .internal _ n => z' (.fresh n)
  | .unknown 0 v => z (.ext v)
  | .unknown _ v => z' (.ext v)
  | .constToVar _ => 0
  | .pad _ => 0

attribute [local instance] fact_prime_five

/-- Cell `0` of two cells gets a `1`, and the read finds it. -/
theorem reads_latest_writeThenRead : ∃ z : SpecVar ℕ → ZMod 5, z (.program 0) = 0 ∧
    HoldsRoot z nullSpec 1 0 twoCells ∧ ReadsLatest 1 z 1 twoCells writeThenRead ∧
    HoldsRoot z nullSpec 1 1 (runOps 1 z 1 twoCells writeThenRead) ∧ z (.program 2) = 1 := by
  have hcells : ∀ k, Function.update twoCells 0 [1] k = [0] ∨
    Function.update twoCells 0 [1] k = [1] := by
    intro k
    rw [Function.update_apply]
    split
    · exact .inr rfl
    · exact twoCells_bit k
  obtain ⟨z, hz, hidx, hval, hrest⟩ := ((collisionFree_two twoCells_bit).exists_overTree 5
    (nullSpec_executes _) (by decide : 0 < 4) (by decide)).2 [1] (by simp [Bits, IsBit]) rfl
  obtain ⟨z', hz', hidx', hrest'⟩ := ((collisionFree_two hcells).exists_overTree 5
    (nullSpec_executes _) (by decide : 0 < 4) (by decide)).1
  have hone : z (.ext (.value 0)) = 1 := by simpa [Holds, genVars] using hval
  have hheld : bitsHeld z (genVars 1 .value) = [1] := by simp [bitsHeld, genVars, hone]
  have hout : ∀ i, z' (.ext (.inHash i)) = z (.ext (.outHash i)) := by
    obtain ⟨hopen, hnew⟩ := hz.opened_putBits (nullSpec_computes 5) (by decide)
    rw [hopen.update_eq hz.root hz.noCollision, hheld, hidx] at hnew
    have hmap : (genVars nullHash.numElts .inHash).map z' =
      (genVars nullHash.numElts .outHash).map z :=
      hz'.root.trans hnew.symm
    intro i
    rcases lt_or_ge i nullHash.numElts with hi | hi
    · simpa [genVars] using List.map_inj_left.1 (by simpa [genVars] using hmap) i
        (List.mem_range.2 hi)
    · rw [(hrest i hi).2, (hrest' i hi).1]
  let e : Extern ℕ := ⟨.putBits, .program 0, [.program 1], 0, some 1, 0⟩
  let e' : Extern ℕ := ⟨.getBits, .program 0, [.program 2], 1, none, 1⟩
  have hcomp : joined z z' ∘ e.ramSubst = z := by
    funext w
    rcases w with n | _ | (_ | i) | i | i <;> first | rfl | exact hout i
  have hcomp' : joined z z' ∘ e'.ramSubst = z' := by
    funext w
    rcases w with n | _ | (_ | i) | i | i <;> first | rfl | exact hidx.trans hidx'.symm
  have hroot : HoldsRoot (joined z z') nullSpec 1 0 twoCells := by
    rw [HoldsRoot, ← hz.root, genVars, List.map_map]
    rfl
  have hrun : RamOp.run 1 (joined z z') 1 ⟨true, .var 0, [.var 1]⟩ twoCells =
      Function.update twoCells 0 [1] := by
    simp [RamOp.run, RamOp.address, RamOp.stored, Operand.eval, joined, hidx, hone]
  have hexpand : expandDbOps 1 insertDbHashInputs writeThenRead =
    some ([e, e'], ⟨[], 1, 2, 1, 2⟩) :=
    rfl
  have hw : ∀ w, joined z z' (e.ramSubst w) = z w := congrFun hcomp
  have hw' : ∀ w, joined z z' (e'.ramSubst w) = z' w := congrFun hcomp'
  have hclean : CleanRun 1 (joined z z') 1 nullSpec twoCells writeThenRead [e, e'] := by
    rw [writeThenRead, CleanRun, CleanRun, hrun, hcomp, hcomp']
    simp only [hw, hw']
    exact ⟨hz.supplied, hz.values, hz.noCollision, hz'.supplied, hz'.values,
      hz'.noCollision, trivial⟩
  have hholds : SpecHolds 1 (joined z z') nullHash 1 [e, e'] ⟨[], 1, 2, 1, 2⟩ := by
    refine ⟨by simp, List.forall_mem_cons.2 ⟨?_, List.forall_mem_singleton.2 ?_⟩⟩
    · rw [hcomp]
      exact hz.satisfies
    · rw [hcomp']
      exact hz'.satisfies
  obtain ⟨hreads, hend⟩ :=
    reads_latest (nullSpec_computes 5) (by decide) hroot hexpand hholds hclean
  refine ⟨joined z z', hidx.trans Nat.cast_zero, hroot, hreads, hend, ?_⟩
  have hread := hreads.2.1 rfl
  rw [hrun] at hread
  simpa [RamOp.address, Operand.eval, joined, hidx] using hread

end Pequin.Merkle
