import Pequin.Lib.Rename
import Pequin.Merkle.BlockByHash
import Pequin.Merkle.Storage

/-!
# Reading a part of a cell

A program reads the first bits of a cell. The template of a read has a variable for every bit of a
cell, so the list of the program's variables is padded, and the names are put into the template. All
padding variables of a read have one name. The prover writes the bits of the cell one after the
other, so this variable ends up with the last bit, and the circuit hashes this bit in all the places
that were padded.
-/

namespace Pequin.Merkle
open Generator TwosComplement HashTree

/-! ## The expansion of a read -/

/-- The variables of the program in a read: the index, the requested bits, `RAMGET_PAD_n` and the
hash of the database. -/
inductive RamVar where
  | index
  | bit (i : ℕ)
  | pad (numRamgets : ℕ)
  | dbHash (i : ℕ)
  | outHash (i : ℕ)
  deriving DecidableEq, Repr

def padBitVars (numRamgets cellNumBits : ℕ) (bitVars : List RamVar) : List RamVar :=
  bitVars ++ List.replicate (cellNumBits - bitVars.length) (.pad numRamgets)

/-- The name of an external variable of the template. -/
def ramSubst (numRamgets : ℕ) (vals : List RamVar) : Ext → RamVar
  | .index => .index
  | .value i => vals.getD i (.pad numRamgets)
  | .inHash i => .dbHash i
  | .outHash i => .outHash i

/-- The names of a read of `numBits` bits. Too many bits are an error. -/
def expandRamget (numRamgets cellNumBits numBits : ℕ) : Option (Ext → RamVar) :=
  if numBits > cellNumBits then none
  else some (ramSubst numRamgets (padBitVars numRamgets cellNumBits
    ((List.range numBits).map .bit)))

/-- The prover, on a template with names. -/
def namedMachine (env : Env) (σ : Ext → RamVar) : Machine RamVar Cmd :=
  renamed σ (Cmd.targets env) fun c s => c.values env s

/-! ## Commands that write numbered variables -/

/-- Whatever the database is, the command writes numbered variables. -/
def Cmd.WritesFresh (c : Cmd) : Prop := ∀ env, ∀ w ∈ c.targets env, w.IsFresh

theorem isFresh_of_mem_block {y k : ℕ} {w : Var} (hw : w ∈ block y k) : w.IsFresh := by
  obtain ⟨i, rfl, -⟩ := mem_block.1 hw
  trivial

theorem writesFresh_poly {y : Var} (hy : y.IsFresh) (p : CmdPoly) : (Cmd.poly y p).WritesFresh := by
  intro _ w hw
  rwa [List.mem_singleton.1 hw]

section
variable {n : ℕ}

theorem emits_newConstraintBuilder : Emits Cmd.WritesFresh newConstraintBuilder n
    fun _ => True := by
  refine .bind .fresh fun zero _ _ hzero => .bind (.row _) fun _ _ _ _ => ?_
  refine .bind (.cmd (writesFresh_poly hzero.isFresh _)) fun _ _ _ _ => ?_
  refine .bind .fresh fun one _ _ hone => .bind (.row _) fun _ _ _ _ => ?_
  exact .cmd (writesFresh_poly hone.isFresh _)

theorem emits_split (x : Var) (numBits : ℕ) :
    Emits Cmd.WritesFresh (split x numBits) n fun _ => True := by
  have hbit : ∀ m, Emits Cmd.WritesFresh newBit m fun _ => True := fun m =>
    .bind .fresh fun _ _ _ _ => .bind (.row _) fun _ _ _ _ => .pure trivial
  refine .bind (.each _ fun _ _ m _ => hbit m) fun _ _ _ _ => ?_
  refine .bind (.cmd fun _ w hw => isFresh_of_mem_block hw) fun _ _ _ _ => ?_
  refine .bind (Q := fun _ => True) ?_ fun _ _ _ _ => .pure trivial
  exact .bind (.row _) fun _ _ _ _ => .pure trivial

theorem emits_combine (xi : List Var) : Emits Cmd.WritesFresh (combine xi) n
    (Generator.Wire.IsNew n) := by
  refine .bind .fresh fun x _ _ hx => .bind (Q := fun _ => True) ?_ fun _ _ _ _ => .pure hx
  exact .bind (.row _) fun _ _ _ _ => .cmd (writesFresh_poly hx.isFresh _)

theorem emits_final (numElts : ℕ) (hashBits : List Var) :
    Emits Cmd.WritesFresh (final numElts hashBits) n fun r => ∀ w ∈ r, w.IsNew n :=
  .each _ fun _ _ _ hm => (emits_combine _).mono fun _ hw => hw.mono hm

theorem emits_getSiblingHashes (h : Hasher) (index : Var) (levels : ℕ) :
    Emits Cmd.WritesFresh (getSiblingHashes h index levels) n fun _ => True := by
  refine (Emits.each (Q := fun _ => True) _ fun i _ m _ => ?_).mono fun _ _ => trivial
  refine .bind (.each (Q := fun _ => True) _ fun _ _ m _ => Emits.fresh.mono fun _ _ => trivial)
    fun _ _ _ _ => ?_
  exact .bind (.cmd fun _ w hw => isFresh_of_mem_block hw) fun _ _ _ _ => .pure trivial

theorem emits_ifThenElseArray (choiceBit : Var) (cond1 cond2 : List Var) :
    Emits Cmd.WritesFresh (ifThenElseArray choiceBit cond1 cond2) n fun _ => True := by
  refine (Emits.each (Q := fun _ => True) _ fun c _ m _ => ?_).mono fun _ _ => trivial
  refine .bind .fresh fun z _ _ hz => .bind (.row _) fun _ _ _ _ => ?_
  exact .bind (.cmd (writesFresh_poly hz.isFresh _)) fun _ _ _ _ => .pure trivial

theorem emits_xor (xi yi : List Var) : Emits Cmd.WritesFresh (xor xi yi) n fun _ => True := by
  refine (Emits.each (Q := fun _ => True) _ fun c _ m _ => ?_).mono fun _ _ => trivial
  refine .bind .fresh fun z _ _ hz => .bind (.row _) fun _ _ _ _ => ?_
  exact .bind (.cmd (writesFresh_poly hz.isFresh _)) fun _ _ _ _ => .pure trivial

theorem emits_compareTo {v1 : List Var} (hv1 : ∀ w ∈ v1, w.IsFresh) (v2 : List Var) :
    Emits Cmd.WritesFresh (compareTo v1 v2) n fun _ => True := by
  refine .bind (.each (Q := fun _ => True) _ fun c hc m _ => ?_) fun _ _ _ _ => .pure trivial
  have hfresh := hv1 _ (List.of_mem_zip hc).1
  exact .bind (.row _) fun _ _ _ _ => .cmd (writesFresh_poly hfresh _)

theorem emits_hashBlockVars (T : Tables) (input : List Var) :
    Emits Cmd.WritesFresh (T.hashBlockVars input) n fun _ => True := by
  refine .bind (Q := fun _ => True) ?_ fun v _ _ _ => ?_
  · refine .bind (.each (Q := Generator.Wire.IsFresh) _ fun i _ m _ => ?_) fun z _ _ hz => ?_
    · exact .bind .fresh fun z _ _ hz => .bind (.row _) fun _ _ _ _ => .pure hz.isFresh
    · exact .bind (.cmd fun _ => hz) fun _ _ _ _ => .pure trivial
  · refine .bind (.each (Q := fun _ => True) _ fun vi _ m _ => ?_) fun _ _ _ _ => .pure trivial
    exact .bind (emits_split _ _) fun _ _ _ _ => .pure trivial

theorem emits_hashLoopVars (T : Tables) (length : ℕ) (firstBlock : Bool)
    (blockBits resultBits input : List Var) : Emits Cmd.WritesFresh
      (T.hashLoopVars length firstBlock blockBits resultBits input) n fun _ => True := by
  induction hk : input.length using Nat.strong_induction_on
    generalizing firstBlock blockBits resultBits input n with
  | _ k ih =>
    unfold Tables.hashLoopVars
    dsimp only
    split
    · exact emits_hashBlockVars T _
    · have hhead := headBits_lt firstBlock
      refine .bind (emits_hashBlockVars T _) fun _ _ _ _ => ih _ ?_ _ _ _ _ rfl
      rw [List.length_drop]
      omega

/-- The circuits of a hash function write numbered variables. -/
structure Hasher.EmitsFresh (h : Hasher) : Prop where
  leaf (n : ℕ) (vars : List Var) : Emits Cmd.WritesFresh (h.hashValueBits vars) n fun _ => True
  node (n : ℕ) (left right : List Var) :
    Emits Cmd.WritesFresh (h.hashChildren left right) n fun _ => True

theorem HashFunc.emitsFresh (T : Tables) (f : HashFunc) : (f.hasher T).EmitsFresh := by
  cases f with
  | null => exact ⟨fun _ _ => .pure trivial, fun _ _ _ => emits_xor _ _⟩
  | ggh => exact ⟨fun _ _ => emits_hashLoopVars T _ _ _ _ _, fun _ _ _ =>
      emits_hashLoopVars T _ _ _ _ _⟩

/-- The root that a path computes is in new variables. -/
theorem emits_genPathSteps {h : Hasher} (hh : h.EmitsFresh) (steps : List (Var × List Var))
    (nodeHash : List Var) : Emits Cmd.WritesFresh (genPathSteps h steps nodeHash) n
      fun r => ∀ w ∈ r, w.IsNew n := by
  induction steps generalizing nodeHash n with
  | nil => exact emits_final _ _
  | cons step steps ih =>
    refine .bind (emits_ifThenElseArray _ _ _) fun l m₁ hm₁ _ => ?_
    refine .bind (emits_ifThenElseArray _ _ _) fun r m₂ hm₂ _ => ?_
    refine .bind (hh.node _ _ _) fun node m₃ hm₃ _ => (ih node).mono fun ws hws w hw => ?_
    exact (hws w hw).mono ((hm₁.trans hm₂).trans hm₃)

/-- After the bits are fetched, only numbered variables are written. -/
theorem emits_checkRead {h : Hasher} (hh : h.EmitsFresh) (levels : ℕ) (rootHash : List Var)
    (index : Var) (outValues : List Var) :
    Emits Cmd.WritesFresh (checkRead h levels rootHash index outValues) n fun _ => True := by
  refine .bind (emits_split _ _) fun pathBits _ _ _ => ?_
  refine .bind (emits_getSiblingHashes _ _ _) fun sib _ _ _ => ?_
  refine .bind (Q := fun _ => True) ?_ fun _ _ _ _ => .pure trivial
  refine .bind (hh.leaf _ _) fun leafHash _ _ _ => ?_
  refine .bind (emits_genPathSteps hh _ _) fun r _ _ hr => ?_
  exact emits_compareTo (fun w hw => (hr w hw).isFresh) rootHash

end

/-! ## When the rows hold after a run -/

theorem Base.cast {s : Var → ℤ} (hs : Base s) (R : Type) [CommRing R] : Base fun w => (s w : R) :=
  ⟨by rw [hs.zero, Int.cast_zero], by rw [hs.one, Int.cast_one]⟩

theorem PathHolds.cast {s : Var → ℤ} {q : ℕ} {steps : List (Var × List Var)} {ss : List (List ℤ)}
    (hpath : PathHolds s q steps ss) (R : Type) [CommRing R] :
    PathHolds (fun w => (s w : R)) q steps ss := by
  induction steps generalizing q ss with
  | nil =>
    cases ss with
    | nil => trivial
    | cons v ss => cases hpath
  | cons step steps ih =>
    cases ss with
    | nil => cases hpath
    | cons v ss =>
      obtain ⟨hbit, hsib, hpath⟩ := hpath
      refine ⟨?_, holds_cast (holds_int_iff.1 hsib) R, ih hpath⟩
      show ((s step.1 : ℤ) : R) = _
      rw [hbit, Int.cast_id]

/-- A comparison writes its first argument. -/
theorem run_compareTo_of_notMem (env : Env) {v1 : List Var} {w : Var} (hw : w ∉ v1) (v2 : List Var)
    (n : ℕ) (s : Var → ℤ) : (machine env).run (compareTo v1 v2 n).cmds s w = s w := by
  have hcmds : (compareTo v1 v2 n).cmds =
      (Gen.each (fun c => assignment c.1 c.2) (v1.zip v2) n).cmds := List.append_nil _
  rw [hcmds]
  clear hcmds
  induction v1 generalizing v2 n s with
  | nil => rfl
  | cons x v1 ih =>
    cases v2 with
    | nil => rfl
    | cons y v2 =>
      obtain ⟨hx, hv1⟩ : w ≠ x ∧ w ∉ v1 := by simpa using hw
      have hcons : (Gen.each (fun c => assignment c.1 c.2) ((x :: v1).zip (y :: v2)) n).cmds =
          (assignment x y n).cmds ++
            (Gen.each (fun c => assignment c.1 c.2) (v1.zip v2) (assignment x y n).next).cmds :=
        congrArg ((assignment x y n).cmds ++ ·) (List.append_nil _)
      rw [hcons, Machine.run_append, ih hv1]
      exact Function.update_of_ne hx _ s

section
variable {h : Hasher} {S : h.Spec} {env : Env} (hS : S.Executes env) (hh : h.EmitsFresh) {p : ℕ}
  [Fact p.Prime] (hc : S.Computes p) {n : ℕ} {s : Var → ℤ} {levels index : ℕ} {leaf : List ℤ}
  (ha : Answers S env levels index leaf) (hbits : Bits leaf)
  (hsbits : ∀ v ∈ env.siblings (Env.address index) levels, Bits v)
include hS hh hc ha hbits hsbits

/-- The path and the comparison with the root hold only if the path leads to the root. The prover
overwrites the root it computed with the one it is compared to. -/
theorem needs_comparePath (hs : Base s) (hn : 2 ≤ n) {pathBits : List Var} {sib : List (List Var)}
    (hready : PathReady env levels index pathBits sib n s) {leafHash root : List Var}
    (hb : ∀ w ∈ leafHash, w.Below n) (hleaf : leafHash.map s = S.leaf leaf)
    (hrb : ∀ w ∈ root, w.Below n) (hrlen : root.length = h.numElts) :
    Needs (machine env) (ZMod p) (genPath h leafHash pathBits sib >>= fun r => compareTo r root) n s
      (Holds (fun w => (s w : ZMod p)) root
        (pack h.numElts (env.rootBits S levels index leaf))) := by
  intro hrows
  rw [Gen.bind_apply, Machine.run_append, rowsHold_append] at hrows
  have hrun := runs_genPath hS ha hs hn hready hb hleaf
  have hnew := (emits_genPathSteps (n := n) hh (pathSteps pathBits sib) leafHash).val
  set r := (genPath h leafHash pathBits sib n).val with hr
  set s' := (machine env).run (genPath h leafHash pathBits sib n).cmds s
  set s'' := (machine env).run (compareTo r root (genPath h leafHash pathBits sib n).next).cmds s'
  have hagree : Agree n s s'' := by
    intro w hw
    have hnot : w ∉ r := fun hmem => (hnew w hmem).not_below hw
    exact (run_compareTo_of_notMem env hnot _ _ _).trans (hrun.agree w hw)
  have hbase : Base fun w => (s'' w : ZMod p) := (hs.of_agree hn hagree).cast (ZMod p)
  have hpath := (hready.of_agree le_rfl hagree).holds.cast (ZMod p)
  have hleaf'' : Holds (fun w => (s'' w : ZMod p)) leafHash (S.leaf leaf) :=
    holds_cast (by rw [hagree.map_eq hb, hleaf]) _
  have hss : ∀ v ∈ (env.siblings (Env.address index) levels).reverse,
      Bits v ∧ v.length = h.numHashBits :=
    fun v hv => ⟨hsbits v (List.mem_reverse.1 hv), ha.length_siblings v hv⟩
  have hroot := sound_genPathSteps hc hbase hpath hss hleaf''
    ⟨S.bits_leaf hbits, S.length_leaf leaf⟩ n hrows.1
  have hlens : r.length = root.length := (hroot.length_eq.trans length_pack).trans hrlen.symm
  have heq := sound_compareTo hbase hlens _ hrows.2
  have hmap : root.map (fun w => (s w : ZMod p)) = root.map fun w => (s'' w : ZMod p) :=
    List.map_congr_left fun w hw => by rw [hagree w (hrb w hw)]
  unfold Holds at hroot ⊢
  rw [hmap, ← heq]
  exact hroot

/-- The rows of a read hold only if the path leads to the root. -/
theorem needs_checkRead (hs : Base s) (hn : 2 ≤ n) {x : Var} (hx : x.Below n) (hidx : s x = index)
    {root values : List Var} (hvb : ∀ w ∈ values, w.Below n) (hvals : values.map s = leaf)
    (hrb : ∀ w ∈ root, w.Below n) (hrlen : root.length = h.numElts) :
    Needs (machine env) (ZMod p) (checkRead h levels root x values) n s
      (Holds (fun w => (s w : ZMod p)) root
        (pack h.numElts (env.rootBits S levels index leaf))) := by
  refine .bind (runs_splitIndex ha hs hn hx hidx) fun pathBits m s₁ hm hs₁ ⟨hpb, hp⟩ => ?_
  refine .bind (runs_siblings ha (hx.mono hm) ((hs₁ x hx).trans hidx))
    fun sib m₂ s₂ hm₂ hs₂ ⟨hsb, hsv⟩ => .bind_pure ?_
  have hready := ha.pathReady (fun w hw => (hpb w hw).mono hm₂) (by rw [hs₂.map_eq hpb, hp]) hsb hsv
  have hagree₂ : Agree n s s₂ := hs₁.trans hs₂ hm
  have hle₂ := hm.trans hm₂
  have hvals₂ : values.map s₂ = leaf := by rw [hagree₂.map_eq hvb, hvals]
  have hrun := hS.leaf m₂ s₂ values (hn.trans hle₂) (hs.of_agree hn hagree₂)
    (fun w hw => (hvb w hw).mono hle₂) (hvals₂ ▸ ha.leafRange)
  rw [hvals₂] at hrun
  refine .bind hrun fun leafHash m₃ s₃ hm₃ hs₃ ⟨hhb, hhash⟩ => ?_
  have hagree₃ : Agree n s s₃ := hagree₂.trans hs₃ hle₂
  have hle₃ := hle₂.trans hm₃
  intro hrows
  have hneeds := needs_comparePath hS hh hc ha hbits hsbits (hs.of_agree hn hagree₃) (hn.trans hle₃)
    (hready.of_agree hm₃ hs₃) hhb hhash (fun w hw => (hrb w hw).mono hle₃) hrlen hrows
  have hmap : root.map (fun w => (s₃ w : ZMod p)) = root.map fun w => (s w : ZMod p) :=
    List.map_congr_left fun w hw => by rw [hagree₃ w (hrb w hw)]
  unfold Holds at hneeds ⊢
  rwa [hmap] at hneeds

end

/-! ## The prover's run -/

/-- The database's answers about the cell at `index`. -/
structure Serves (T : Tables) (f : HashFunc) (levels index : ℕ) (cell : List Bool)
    (sib : List (List Bool)) (env : Env) : Prop where
  aMat_eq : env.aMat = T.row
  numHashBits_eq : env.numHashBits = (f.hasher T).numHashBits
  ram_eq : env.ram (Env.address index) = Tables.ints cell
  length_sib : sib.length = levels - 1
  siblingHash_eq : ∀ i < levels - 1,
    env.siblingHash (Env.address index) (i + 1) = Tables.ints (sib.getD i [])
  length_hash : ∀ x ∈ sib, x.length = (f.hasher T).numHashBits

/-- The root of the database, from a cell and the hashes of the siblings from the top. -/
def storedRoot (T : Tables) (f : HashFunc) (index : ℕ) (cell : List Bool) (sib : List (List Bool)) :
    List Bool := climb (f.hashPair T) index (f.hash T cell) sib.reverse

/-- The root that the circuit computes from the bits in its variables. -/
def circuitRoot (T : Tables) (f : HashFunc) (index : ℕ) (leaf : List ℤ) (sib : List (List Bool)) :
    List ℤ := climb (f.spec T).node index ((f.spec T).leaf leaf) (sib.map circuitBits).reverse

section
variable {T : Tables} {f : HashFunc} {levels index : ℕ} {cell : List Bool} {sib : List (List Bool)}
  {env : Env} (hserves : Serves T f levels index cell sib env)
include hserves

theorem Serves.siblings_eq :
    env.siblings (Env.address index) levels = sib.map circuitBits := by
  refine List.ext_getElem (by simp [Env.siblings, hserves.length_sib]) fun i h1 h2 => ?_
  have hi : i < levels - 1 := by simpa [Env.siblings] using h1
  have hsib : i < sib.length := by rwa [hserves.length_sib]
  simp [Env.siblings, hserves.siblingHash_eq i hi, circuitBits, List.getElem?_eq_getElem hsib]

theorem Serves.bits_siblings :
    ∀ v ∈ env.siblings (Env.address index) levels, Bits v := by
  intro v hv
  rw [hserves.siblings_eq] at hv
  obtain ⟨x, -, rfl⟩ := List.mem_map.1 hv
  exact bits_circuitBits x

theorem Serves.answers (hindex : index < 2 ^ levels) {leaf : List ℤ} (hleaf : Bits leaf) :
    Answers (f.spec T) env levels index leaf := by
  refine ⟨hindex, hserves.numHashBits_eq, fun i hi => ?_, (f.spec T).leafRange_of_bits hleaf,
    nodeRange_climbPairs _ ((f.spec T).bits_leaf hleaf) (fun v hv => ?_) index⟩
  · have hmem : sib.getD i [] ∈ sib := by
      have hlt : i < sib.length := by rwa [hserves.length_sib]
      rw [List.getD_eq_getElem?_getD, List.getElem?_eq_getElem hlt, Option.getD_some]
      exact List.getElem_mem hlt
    rw [hserves.siblingHash_eq i hi, Tables.length_ints, hserves.length_hash _ hmem]
  · exact hserves.bits_siblings v (List.mem_reverse.1 hv)

theorem Serves.rootBits_eq (leaf : List ℤ) :
    env.rootBits (f.spec T) levels index leaf = circuitRoot T f index leaf sib := by
  rw [Env.rootBits, hserves.siblings_eq, circuitRoot]

end

/-- The variables after the prover has run the commands of a read. -/
def ramgetState (h : Hasher) (dbSize cellNumBits : ℕ) (σ : Ext → RamVar) (env : Env)
    (s : Generator.Wire RamVar → ℤ) : Generator.Wire RamVar → ℤ :=
  (namedMachine env σ).run (template h dbSize cellNumBits .getBits).cmds s

section
variable {numRamgets cellNumBits numBits : ℕ}

theorem mem_padBitVars {v : RamVar}
    (hv : v ∈ padBitVars numRamgets cellNumBits ((List.range numBits).map .bit)) :
    (∃ i, v = .bit i) ∨ v = .pad numRamgets := by
  rcases List.mem_append.1 hv with hv | hv
  · obtain ⟨i, -, rfl⟩ := List.mem_map.1 hv
    exact .inl ⟨i, rfl⟩
  · exact .inr (List.eq_of_mem_replicate hv)

/-- The variables of the cell's bits get the names of the padded list. -/
theorem map_genVars_ramSubst (hbits : numBits ≤ cellNumBits) :
    (genVars cellNumBits .value).map (Generator.Wire.map (ramSubst numRamgets
      (padBitVars numRamgets cellNumBits ((List.range numBits).map .bit)))) =
    (padBitVars numRamgets cellNumBits ((List.range numBits).map .bit)).map .ext := by
  have hlen : (padBitVars numRamgets cellNumBits ((List.range numBits).map .bit)).length =
      cellNumBits := by simp [padBitVars, Nat.add_sub_cancel' hbits]
  refine List.ext_getElem (by simp [genVars, hlen]) fun i h1 h2 => ?_
  have hi : i < (padBitVars numRamgets cellNumBits ((List.range numBits).map .bit)).length := by
    simpa using h2
  simp [genVars, Generator.Wire.map, ramSubst, List.getElem?_eq_getElem hi]

/-- What the circuit sees of a cell when it is written to the padded variables. -/
theorem map_padBitVars (hbits : numBits ≤ cellNumBits) {vs : List ℤ} (hvs : vs.length = cellNumBits)
    (s : Generator.Wire RamVar → ℤ) :
    ((padBitVars numRamgets cellNumBits ((List.range numBits).map .bit)).map .ext).map
      (writeAll ((padBitVars numRamgets cellNumBits ((List.range numBits).map .bit)).map .ext) vs s)
    = shadow numBits vs := by
  have hnodup : (((List.range numBits).map RamVar.bit).map (Generator.Wire.ext)).Nodup :=
    (List.nodup_range.map fun _ _ h => RamVar.bit.inj h).map fun _ _ h => Generator.Wire.ext.inj h
  have hpad : Generator.Wire.ext (.pad numRamgets) ∉ ((List.range numBits).map RamVar.bit).map
    Generator.Wire.ext := by
    simp
  have hlen : (((List.range numBits).map RamVar.bit).map (Generator.Wire.ext)).length =
    numBits := by simp
  have hle : (((List.range numBits).map RamVar.bit).map (Generator.Wire.ext)).length ≤
    vs.length := by
    rwa [hlen, hvs]
  have h := map_writeAll_pad hnodup hpad hle s
  rw [hlen, hvs] at h
  rw [← h]
  simp [padBitVars]

/-- After the bits are fetched, the circuit's variables hold the index, the root and what is left of
the cell. -/
structure Fetched (cellNumBits numBits index : ℕ) (cell : List Bool) (s : Generator.Wire RamVar → ℤ)
    (u : Var → ℤ) : Prop where
  base : Base u
  index_eq : u (.ext .index) = index
  values_eq : (genVars cellNumBits .value).map u = shadow numBits (Tables.ints cell)
  root_eq : ∀ i, u (.ext (.inHash i)) = s (.ext (.dbHash i))

/-- The run under the names is a run of the circuit from what was fetched. -/
theorem exists_fetched {T : Tables} {f : HashFunc} {dbSize index : ℕ} {cell : List Bool}
    {sib : List (List Bool)} {env : Env}
    (hserves : Serves T f (numLevels dbSize) index cell sib env) (hcell : cell.length = cellNumBits)
    (hbits : numBits ≤ cellNumBits) {σ : Ext → RamVar}
    (hσ : σ = ramSubst numRamgets (padBitVars numRamgets cellNumBits
      ((List.range numBits).map .bit)))
    {s : Generator.Wire RamVar → ℤ} (hindex : s (.ext .index) = index) :
    ∃ u, Fetched cellNumBits numBits index cell s u ∧
      ramgetState (f.hasher T) dbSize cellNumBits σ env s ∘ Generator.Wire.map σ =
        (machine env).run (checkRead (f.hasher T) (numLevels dbSize)
          (genVars (f.hasher T).numElts .inHash) (.ext .index)
          (genVars cellNumBits .value) 2).cmds u := by
  set vals := padBitVars numRamgets cellNumBits ((List.range numBits).map RamVar.bit) with hvals
  set rest := (checkRead (f.hasher T) (numLevels dbSize) (genVars (f.hasher T).numElts .inHash)
    (.ext .index) (genVars cellNumBits .value) 2).cmds with hrest
  set s₁ := (namedMachine env σ).run (newConstraintBuilder 0).cmds s with hs₁
  set s₂ := writeAll (vals.map .ext) (Tables.ints cell) s₁ with hs₂
  have hpull₁ : s₁ ∘ Generator.Wire.map σ = (machine env).run (newConstraintBuilder 0).cmds
    (s ∘ Generator.Wire.map σ) :=
    pull_run σ _ _ (fun c hc => emits_newConstraintBuilder.cmds c hc env) s
  have hbase₁ : Base (s₁ ∘ Generator.Wire.map σ) := by
    rw [hpull₁]
    exact ⟨rfl, rfl⟩
  have hext₁ : ∀ k, (s₁ ∘ Generator.Wire.map σ) (.ext k) = s (.ext (σ k)) := by
    intro k
    rw [hpull₁]
    exact run_ext _ _ (fun c hc => emits_newConstraintBuilder.cmds c hc env) _ k
  have hstep : (namedMachine env σ).step (.dbGetBits (.ext .index) (genVars cellNumBits .value))
      s₁ = s₂ := by
    have hval : (Cmd.dbGetBits (.ext .index) (genVars cellNumBits .value)).values env
        (s₁ ∘ Generator.Wire.map σ) = Tables.ints cell := by
      show env.ram (Env.address ((s₁ ∘ Generator.Wire.map σ) (.ext .index))) = _
      rw [hext₁, hσ]
      show env.ram (Env.address (s (.ext .index))) = _
      rw [hindex, hserves.ram_eq]
    show writeAll ((genVars cellNumBits .value).map (Generator.Wire.map σ))
      ((Cmd.dbGetBits (.ext .index) (genVars cellNumBits .value)).values env
        (s₁ ∘ Generator.Wire.map σ)) s₁ = _
    rw [hval, hσ, map_genVars_ramSubst hbits]
  have hkeep : ∀ w : Generator.Wire RamVar, (∀ v ∈ vals, w ≠ .ext v) → s₂ w = s₁ w := by
    intro w hw
    refine writeAll_of_notMem (fun hmem => ?_) _ _
    obtain ⟨v, hv, rfl⟩ := List.mem_map.1 hmem
    exact hw v hv rfl
  have hname : ∀ v, (∀ i, v ≠ .bit i) → v ≠ .pad numRamgets → s₂ (.ext v) = s₁ (.ext v) := by
    intro v hbit hpad
    refine hkeep _ fun v' hv' heq => ?_
    obtain rfl := Generator.Wire.ext.inj heq
    exact (mem_padBitVars hv').elim (fun hi => hi.elim hbit) hpad
  refine ⟨s₂ ∘ Generator.Wire.map σ, ⟨⟨?_, ?_⟩, ?_, ?_, fun i => ?_⟩, ?_⟩
  · exact (hkeep _ fun _ _ => by simp [Generator.Wire.map, zero]).trans hbase₁.zero
  · exact (hkeep _ fun _ _ => by simp [Generator.Wire.map, one]).trans hbase₁.one
  · have h := hext₁ .index
    rw [hσ] at h ⊢
    exact (hname .index (by simp) (by simp)).trans (h.trans hindex)
  · rw [← List.map_map, hσ, map_genVars_ramSubst hbits]
    exact map_padBitVars hbits (by rw [Tables.length_ints, hcell]) s₁
  · have h := hext₁ (.inHash i)
    rw [hσ] at h ⊢
    exact (hname (.dbHash i) (by simp) (by simp)).trans h
  · have hcmds : (template (f.hasher T) dbSize cellNumBits .getBits).cmds =
        (newConstraintBuilder 0).cmds ++
          (.dbGetBits (.ext .index) (genVars cellNumBits .value) :: rest) := rfl
    rw [ramgetState, hcmds, Machine.run_append, ← hs₁, Machine.run_cons, hstep]
    exact pull_run σ _ _ (fun c hc => (emits_checkRead (f.emitsFresh T) _ _ _ _).cmds c hc env) s₂

end

theorem bits_shadow {k : ℕ} {vs : List ℤ} (hvs : Bits vs) : Bits (shadow k vs) := by
  refine Bits.append.2 ⟨hvs.take k, Bits.replicate ?_ _⟩
  rw [List.getLastD_eq_getLast?]
  cases h : vs.getLast? with
  | none => exact .inl rfl
  | some v => exact hvs v (List.mem_of_getLast? h)

/-! ## When a read of a part of a cell succeeds -/

section
variable {T : Tables} {f : HashFunc} {index : ℕ} {sib : List (List Bool)}
  (hsib : ∀ x ∈ sib, x.length = (f.hasher T).numHashBits)
include hsib

theorem circuitRoot_valid {leaf : List ℤ} (hleaf : Bits leaf) :
    Bits (circuitRoot T f index leaf sib) ∧
      (circuitRoot T f index leaf sib).length = (f.hasher T).numHashBits := by
  refine climb_all (P := fun v : List ℤ => Bits v ∧ v.length = (f.hasher T).numHashBits)
    (fun x y hx hy => ⟨(f.spec T).bits_node hx.1 hy.1, (f.spec T).length_node hx.2 hy.2⟩) index
    ⟨(f.spec T).bits_leaf hleaf, (f.spec T).length_leaf leaf⟩ fun v hv => ?_
  obtain ⟨x, hx, rfl⟩ := List.mem_map.1 (List.mem_reverse.1 hv)
  exact ⟨bits_circuitBits x, (length_circuitBits x).trans (hsib x hx)⟩

theorem length_storedRoot (cell : List Bool) :
    (storedRoot T f index cell sib).length = (f.hasher T).numHashBits :=
  climb_all (P := fun x : List Bool => x.length = (f.hasher T).numHashBits)
    (fun _ _ hx hy => f.length_hashPair hx hy) index (f.length_hash cell)
    fun x hx => hsib x (List.mem_reverse.1 hx)

/-- The circuit computes the root of the database from the bits of the cell. -/
theorem circuitRoot_ints (hT : T.Valid) (hf : f = .ggh) {cell : List Bool}
    (hcell : cell.length < 2 ^ 31) :
    circuitRoot T f index (Tables.ints cell) sib = circuitBits (storedRoot T f index cell sib) := by
  have hleaf : (f.spec T).leaf (Tables.ints cell) = circuitBits (f.hash T cell) := by
    subst hf
    exact Tables.hashInts_ints hT hcell
  rw [circuitRoot, hleaf, ← List.map_reverse]
  exact climb_circuitBits f hT index (f.length_hash cell) fun x hx => hsib x (List.mem_reverse.1 hx)

end

theorem expandRamget_eq_some {numRamgets cellNumBits numBits : ℕ} {σ : Ext → RamVar}
    (hσ : expandRamget numRamgets cellNumBits numBits = some σ) : numBits ≤ cellNumBits ∧
      σ = ramSubst numRamgets (padBitVars numRamgets cellNumBits
        ((List.range numBits).map .bit)) := by
  unfold expandRamget at hσ
  split at hσ
  · cases hσ
  · exact ⟨by omega, (Option.some.inj hσ).symm⟩

section
variable {T : Tables} {f : HashFunc} {dbSize index : ℕ} {numRamgets cellNumBits numBits : ℕ}
  {σ : Ext → RamVar} (hσ : expandRamget numRamgets cellNumBits numBits = some σ) {cell : List Bool}
  (hcell : cell.length = cellNumBits) {sib : List (List Bool)} {env : Env}
  (hserves : Serves T f (numLevels dbSize) index cell sib env) {s : Generator.Wire RamVar → ℤ}
  (hidx : s (.ext .index) = index)
include hσ hcell hserves hidx

/-- The requested variables hold the first bits of the cell. -/
theorem requested_eq : ((List.range numBits).map fun i =>
    ramgetState (f.hasher T) dbSize cellNumBits σ env s (.ext (.bit i))) =
      (Tables.ints cell).take numBits := by
  obtain ⟨hbits, hsubst⟩ := expandRamget_eq_some hσ
  obtain ⟨u, hu, hrun⟩ := exists_fetched hserves hcell hbits hsubst hidx
  have hname : ∀ i < numBits, σ (.value i) = .bit i := by
    intro i hi
    have hlen : i < ((List.range numBits).map RamVar.bit).length := by simpa using hi
    rw [hsubst]
    simp [ramSubst, padBitVars, List.getElem?_append_left hlen, hi]
  have hval : ∀ i < numBits, ramgetState (f.hasher T) dbSize cellNumBits σ env s (.ext (.bit i)) =
      u (.ext (.value i)) := by
    intro i hi
    rw [← hname i hi]
    refine (congrFun hrun (.ext (.value i))).trans ?_
    exact run_ext _ _ (fun c hc => (emits_checkRead (f.emitsFresh T) _ _ _ _).cmds c hc env) u _
  have htake := congrArg (List.take numBits) hu.values_eq
  have hlen : ((Tables.ints cell).take numBits).length = numBits := by
    rw [List.length_take, Tables.length_ints, hcell, Nat.min_eq_left hbits]
  rw [shadow, List.take_append_of_le_length hlen.ge, List.take_take, Nat.min_self] at htake
  rw [← htake, genVars, List.map_map, ← List.map_take, List.take_range, Nat.min_eq_left hbits]
  exact List.map_congr_left fun i hi => hval i (List.mem_range.1 hi)

variable (hT : T.Valid) (hindex : index < dbSize)
  (hroot : ((List.range (f.hasher T).numElts).map fun i => s (.ext (.dbHash i))) =
    createHash (f.hasher T).numElts (storedRoot T f index cell sib)) {p : ℕ} [Fact p.Prime]
  (hp : 2 ^ hashFieldBits ≤ p)
include hT hindex hroot hp

/-- The rows of a read hold after the run if and only if what is left of the cell has the root of
the database. -/
theorem ramget_rowsHold_iff :
    RowsHold (fun w => (ramgetState (f.hasher T) dbSize cellNumBits σ env s w : ZMod p))
      ((template (f.hasher T) dbSize cellNumBits .getBits).rows.map (Row.rename σ)) ↔
    circuitRoot T f index (shadow numBits (Tables.ints cell)) sib =
      circuitBits (storedRoot T f index cell sib) := by
  obtain ⟨hbits, hsubst⟩ := expandRamget_eq_some hσ
  obtain ⟨u, hu, hrun⟩ := exists_fetched hserves hcell hbits hsubst hidx
  have hlevels : index < 2 ^ numLevels dbSize := by
    have h1 := Nat.le_pow_clog one_lt_two dbSize
    have h2 : 2 ^ Nat.clog 2 dbSize ≤ 2 ^ numLevels dbSize :=
      Nat.pow_le_pow_right two_pos (Nat.le_succ _)
    omega
  have hleaf : Bits (shadow numBits (Tables.ints cell)) := bits_shadow (Tables.bits_ints cell)
  have ha := hserves.answers hlevels hleaf
  have hexec := f.spec_executes hT hserves.aMat_eq
  have hstored : (storedRoot T f index cell sib).length = (f.hasher T).numHashBits :=
    length_storedRoot hserves.length_hash cell
  have hmap : (genVars (f.hasher T).numElts .inHash).map u =
      pack (f.hasher T).numElts (circuitBits (storedRoot T f index cell sib)) := by
    rw [circuitBits, pack_reverse_ints hstored, ← hroot, genVars, List.map_map]
    exact List.map_congr_left fun i _ => hu.root_eq i
  have hroots : ∀ w ∈ genVars (f.hasher T).numElts .inHash, w.Below 2 := below_genVars
  have hvals : ∀ w ∈ genVars cellNumBits .value, w.Below 2 := below_genVars
  rw [rowsHold_rename]
  have hcomp : (fun w => (ramgetState (f.hasher T) dbSize cellNumBits σ env s w : ZMod p)) ∘
      Generator.Wire.map σ = fun w => (((machine env).run (checkRead (f.hasher T) (numLevels dbSize)
        (genVars (f.hasher T).numElts .inHash) (.ext .index) (genVars cellNumBits .value) 2).cmds u
          w : ℤ) : ZMod p) := by
    rw [← hrun]
    rfl
  rw [hcomp]
  constructor
  · intro hrows
    have hneeds := needs_checkRead hexec (f.emitsFresh T)
      (f.spec_computes hT ((by decide : 2 ^ 32 ≤ 2 ^ hashFieldBits).trans hp)) ha hleaf
      hserves.bits_siblings hu.base le_rfl Generator.Wire.below_ext hu.index_eq hvals
        hu.values_eq hroots
      (by simp [genVars]) ((rowsHold_append _).1 hrows).2
    rw [hserves.rootBits_eq] at hneeds
    have hstoredRoot := holds_cast hmap (ZMod p)
    have hvalid : Bits (circuitRoot T f index _ sib) ∧ _ :=
      circuitRoot_valid hserves.length_hash hleaf
    exact pack_eq_of_cast_eq hp hvalid.1 hvalid.2 (bits_circuitBits _)
      ((length_circuitBits _).trans hstored) (hneeds.symm.trans hstoredRoot)
  · intro heq
    have hrootu : (genVars (f.hasher T).numElts .inHash).map u = pack (f.hasher T).numElts
        (env.rootBits (f.spec T) (numLevels dbSize) index (shadow numBits (Tables.ints cell))) := by
      rw [hserves.rootBits_eq, heq, hmap]
    have hread := runs_checkRead hexec ha hu.base le_rfl Generator.Wire.below_ext hu.index_eq hvals
      hroots hrootu hu.values_eq
    have hall : Satisfies _ (template (f.hasher T) dbSize cellNumBits .getBits) :=
      satisfies_template.2 ⟨hu.base.of_agree le_rfl hread.agree, hread.rows⟩
    exact hall.cast (ZMod p)

end

/-- No two different inputs that are hashed on the ways of two cells to the root have the same
hash. -/
structure NoPathCollision (T : Tables) (f : HashFunc) (index : ℕ) (xs ys : List ℤ)
    (sib : List (List Bool)) : Prop where
  leaf : Set.InjOn (f.spec T).leaf {xs, ys}
  node : Set.InjOn (fun pr : List ℤ × List ℤ => (f.spec T).node pr.1 pr.2)
    {pr | ∃ cell ∈ ({xs, ys} : Set (List ℤ)), pr ∈ climbPairs (f.spec T).node index
      ((f.spec T).leaf cell) (sib.map circuitBits).reverse}

theorem NoPathCollision.eq_of_circuitRoot_eq {T : Tables} {f : HashFunc} {index : ℕ}
    {xs ys : List ℤ} {sib : List (List Bool)} (h : NoPathCollision T f index xs ys sib)
    (heq : circuitRoot T f index xs sib = circuitRoot T f index ys sib) : xs = ys :=
  h.leaf (.inl rfl) (.inr rfl) (climb_inj h.node rfl (fun _ hpr => ⟨xs, .inl rfl, hpr⟩)
    (fun _ hpr => ⟨ys, .inr rfl, hpr⟩) heq).1

theorem shadow_ints_iff {k : ℕ} {cell : List Bool} :
    shadow k (Tables.ints cell) = Tables.ints cell ↔ ∃ b, ∀ x ∈ cell.drop k, x = b := by
  rw [shadow_eq_self_iff, Tables.ints, ← List.map_drop]
  constructor
  · rintro ⟨v, hv⟩
    refine ⟨decide (v = 1), fun x hx => ?_⟩
    rw [← hv _ (List.mem_map_of_mem hx)]
    cases x <;> rfl
  · rintro ⟨b, hb⟩
    refine ⟨b.toInt, fun v hv => ?_⟩
    obtain ⟨x, hx, rfl⟩ := List.mem_map.1 hv
    rw [hb x hx]

/-- A read of the first bits of a cell satisfies its constraints and gives these bits if and only if
the other bits of the cell are all equal, when no hashes on the path collide. -/
theorem partialRead_iff {T : Tables} (hT : T.Valid) {p : ℕ} [Fact p.Prime]
    (hp : 2 ^ hashFieldBits ≤ p) {dbSize index : ℕ} (hindex : index < dbSize)
    {numRamgets cellNumBits numBits : ℕ} (hwidth : cellNumBits < 2 ^ 31) {σ : Ext → RamVar}
    (hσ : expandRamget numRamgets cellNumBits numBits = some σ) {cell : List Bool}
    (hcell : cell.length = cellNumBits) {sib : List (List Bool)} {env : Env}
    (hserves : Serves T .ggh (numLevels dbSize) index cell sib env) {s : Generator.Wire RamVar → ℤ}
    (hidx : s (.ext .index) = index)
    (hroot : ((List.range T.hasher.numElts).map fun i => s (.ext (.dbHash i))) =
      createHash T.hasher.numElts (storedRoot T .ggh index cell sib))
    (hnc : NoPathCollision T .ggh index (shadow numBits (Tables.ints cell))
      (Tables.ints cell) sib) :
    (RowsHold (fun w => (ramgetState T.hasher dbSize cellNumBits σ env s w : ZMod p))
        ((template T.hasher dbSize cellNumBits .getBits).rows.map (Row.rename σ)) ∧
      ((List.range numBits).map fun i =>
        ramgetState T.hasher dbSize cellNumBits σ env s (.ext (.bit i))) =
          (Tables.ints cell).take numBits) ↔
      ∃ b, ∀ x ∈ cell.drop numBits, x = b := by
  have hrows := ramget_rowsHold_iff hσ hcell hserves hidx hT hindex hroot hp
  rw [← circuitRoot_ints hserves.length_hash hT rfl (hcell ▸ hwidth)] at hrows
  rw [← shadow_ints_iff]
  constructor
  · intro h
    exact hnc.eq_of_circuitRoot_eq (hrows.1 h.1)
  · intro h
    exact ⟨hrows.2 (by rw [h]), requested_eq hσ hcell hserves hidx⟩

/-! ## A database that serves one cell -/

def cellEnv (T : Tables) (cell : List Bool) (sib : List (List Bool)) : Env where
  aMat := T.row
  ram _ := Tables.ints cell
  numHashBits := T.hasher.numHashBits
  siblingHash _ i := Tables.ints (sib.getD (i - 1) [])
  block _ := []

def cellState (T : Tables) (index : ℕ) (cell : List Bool) (sib : List (List Bool)) :
    Generator.Wire RamVar → ℤ
  | .ext .index => index
  | .ext (.dbHash i) => (createHash T.hasher.numElts (storedRoot T .ggh index cell sib)).getD i 0
  | _ => 0

theorem serves_cellEnv (T : Tables) (index : ℕ) (cell : List Bool) {sib : List (List Bool)}
    {levels : ℕ} (hlen : sib.length = levels - 1)
    (hhash : ∀ x ∈ sib, x.length = T.hasher.numHashBits) :
    Serves T .ggh levels index cell sib (cellEnv T cell sib) where
  aMat_eq := rfl
  numHashBits_eq := rfl
  ram_eq := rfl
  length_sib := hlen
  siblingHash_eq _ _ := rfl
  length_hash := hhash

theorem cellState_root (T : Tables) (index : ℕ) (cell : List Bool) (sib : List (List Bool)) :
    ((List.range T.hasher.numElts).map fun i => cellState T index cell sib (.ext (.dbHash i))) =
      createHash T.hasher.numElts (storedRoot T .ggh index cell sib) := by
  have hlen : (createHash T.hasher.numElts (storedRoot T .ggh index cell sib)).length =
      T.hasher.numElts := by simp [createHash]
  refine List.ext_getElem (by simp [hlen]) fun i h1 h2 => ?_
  simp [cellState, List.getElem?_eq_getElem h2]

/-- The names of a read of `numBits` bits of a cell with `cellNumBits` bits. -/
def cellNames (cellNumBits numBits : ℕ) : Ext → RamVar :=
  ramSubst 0 (padBitVars 0 cellNumBits ((List.range numBits).map .bit))

theorem fact_prime_mersenne_89 : Fact (mersenne 89).Prime :=
  ⟨lucas_lehmer_sufficiency 89 (by norm_num) (by norm_num)⟩

attribute [local instance] fact_prime_mersenne_89

/-- A matrix with the source's entry in row `0` and column `1281`. -/
def oneEntry : Tables where
  aMat i j := if i = 0 ∧ j = 1281 then 426577 else 0
  iv _ := 0

theorem oneEntry_valid : oneEntry.Valid := by
  intro i j
  unfold oneEntry
  dsimp only
  split <;> decide

/-- The first bit of the cell `100`, the second cell of a database of two. -/
theorem partialRead_equalRest : ∃ sib : List (List Bool),
    RowsHold (fun w => (ramgetState oneEntry.hasher 2 3 (cellNames 3 1)
        (cellEnv oneEntry [true, false, false] sib) (cellState oneEntry 1 [true, false, false] sib)
          w : ZMod (mersenne 89)))
      ((template oneEntry.hasher 2 3 .getBits).rows.map (Row.rename (cellNames 3 1))) := by
  set sib := [List.replicate oneEntry.hasher.numHashBits true] with hsib
  have hp : 2 ^ hashFieldBits ≤ mersenne 89 := by norm_num [mersenne, hashFieldBits]
  have hσ : expandRamget 0 3 1 = some (cellNames 3 1) := rfl
  have hserves : Serves oneEntry .ggh (numLevels 2) 1 [true, false, false] sib
      (cellEnv oneEntry [true, false, false] sib) :=
    serves_cellEnv _ 1 _ (by decide) (by simp [hsib])
  have hnc : NoPathCollision oneEntry .ggh 1 (shadow 1 (Tables.ints [true, false, false]))
      (Tables.ints [true, false, false]) sib := by
    have hshadow : shadow 1 (Tables.ints [true, false, false]) = Tables.ints [true, false, false] :=
      shadow_ints_iff.2 ⟨false, by decide⟩
    rw [hshadow]
    refine ⟨by simp, ?_⟩
    rintro pr ⟨_, rfl | rfl, hpr⟩ pr' ⟨_, rfl | rfl, hpr'⟩ - <;>
      exact (List.mem_singleton.1 hpr).trans (List.mem_singleton.1 hpr').symm
  exact ⟨sib, ((partialRead_iff oneEntry_valid hp one_lt_two (by decide) hσ rfl hserves rfl
    (cellState_root ..) hnc).2 ⟨false, by decide⟩).1⟩

/-! ## A cell that cannot be read in part -/

theorem dot_append (row : ℕ → ℤ) (xs ys : List ℤ) :
    dot row (xs ++ ys) = dot row xs + dot (fun j => row (xs.length + j)) ys := by
  have hshift : ∀ (zs : List ℤ) (k : ℕ),
      ((zs.zipIdx k).map fun x => row x.2 * x.1).sum = dot (fun j => row (k + j)) zs := by
    intro zs k
    unfold dot
    rw [List.zipIdx_eq_map_add, List.map_map]
    rfl
  rw [dot, List.zipIdx_append, List.map_append, List.sum_append, Nat.zero_add, hshift ys]
  rfl

/-- The first row's bits of a compressed block. -/
theorem bitsOf_eq_of_compress_eq {T : Tables} {xs ys : List ℤ} (h : T.compress xs = T.compress ys) :
    bitsOf qBits (dot (T.row 0) xs) = bitsOf qBits (dot (T.row 0) ys) := by
  have hrows : ∀ zs, T.compress zs = bitsOf qBits (dot (T.row 0) zs) ++
      ((List.range 63).map Nat.succ).flatMap fun i => bitsOf qBits (dot (T.row i) zs) := by
    intro zs
    rw [Tables.compress, numRows, List.range_succ_eq_map, List.flatMap_cons]
  rw [hrows, hrows] at h
  exact (List.append_inj h (by rw [length_bitsOf, length_bitsOf])).1

/-- An entry of the matrix tells two leaves apart. -/
theorem hashInts_ne {T : Tables} (hT : T.Valid) (hentry : T.aMat 0 1281 ≠ 0) :
    T.hashInts [1, 0, 0] ≠ T.hashInts [1, 1, 0] := by
  intro h
  have hroom : ∀ xs : List ℤ, xs.length = 3 → xs.length < Tables.room true := by
    intro xs hxs
    rw [hxs]
    decide
  have h := List.reverse_injective h
  rw [Tables.absorbFrom_of_lt (hroom _ rfl), Tables.absorbFrom_of_lt (hroom _ rfl)] at h
  simp only [List.length_cons, List.length_nil, Nat.reduceAdd] at h
  set pre := Tables.head true (Tables.ints T.copyIVBits)
    (Tables.ints (Tables.copyLengthBits 3)) with hpre
  have hlen : pre.length = 1280 := Tables.length_head
    (by rw [Tables.length_ints, Tables.length_copyIVBits])
    (by rw [Tables.length_ints, Tables.length_copyLengthBits])
  have hdot : ∀ x, dot (T.row 0) (pre ++ [1, x, 0] ++ [1]) =
      dot (T.row 0) pre + T.row 0 1280 + T.row 0 1281 * x + T.row 0 1283 := by
    intro x
    rw [List.append_assoc, dot_append, hlen]
    simp [dot, List.zipIdx]
    ring
  have hbits := congrArg unsigned (bitsOf_eq_of_compress_eq h)
  have h0 := unsigned_bitsOf qBits (dot (T.row 0) (pre ++ [1, 0, 0] ++ [1]))
  have h1 := unsigned_bitsOf qBits (dot (T.row 0) (pre ++ [1, 1, 0] ++ [1]))
  rw [hdot 0] at h0 hbits
  rw [hdot 1] at h1 hbits
  rw [hbits] at h0
  have hlt := hT 0 1281
  have hrow : T.row 0 1281 = T.aMat 0 1281 := rfl
  unfold qBits at h0 h1 hlt
  omega

/-- The first bit of the cell `110` cannot be read. -/
theorem not_rowsHold_partialRead {T : Tables} (hT : T.Valid) (hentry : T.aMat 0 1281 ≠ 0) :
    ¬ RowsHold (fun w => (ramgetState T.hasher 1 3 (cellNames 3 1) (cellEnv T [true, true, false]
        []) (cellState T 0 [true, true, false] []) w : ZMod (mersenne 89)))
      ((template T.hasher 1 3 .getBits).rows.map (Row.rename (cellNames 3 1))) := by
  intro hrows
  have hp : 2 ^ hashFieldBits ≤ mersenne 89 := by norm_num [mersenne, hashFieldBits]
  have hσ : expandRamget 0 3 1 = some (cellNames 3 1) := rfl
  have hserves : Serves T .ggh (numLevels 1) 0 [true, true, false] []
      (cellEnv T [true, true, false] []) := serves_cellEnv _ 0 _ (by decide) (by simp)
  have heq := (ramget_rowsHold_iff hσ rfl hserves rfl hT zero_lt_one (cellState_root ..) hp).1 hrows
  have hstored : circuitBits (storedRoot T .ggh 0 [true, true, false] []) = T.hashInts [1, 1, 0] :=
    (Tables.hashInts_ints hT (v := [true, true, false]) (by decide)).symm
  rw [hstored] at heq
  exact hashInts_ne hT hentry heq

theorem partialRead_fails :
    ¬ RowsHold (fun w => (ramgetState oneEntry.hasher 1 3 (cellNames 3 1)
        (cellEnv oneEntry [true, true, false] []) (cellState oneEntry 0 [true, true, false] []) w :
          ZMod (mersenne 89)))
      ((template oneEntry.hasher 1 3 .getBits).rows.map (Row.rename (cellNames 3 1))) :=
  not_rowsHold_partialRead oneEntry_valid (by decide)

end Pequin.Merkle
