import Pequin.Lib.HashTree
import Pequin.Merkle.Hasher

/-!
# Operations on the database

The constraints of an operation on the database. An operation on a cell checks the cell against the
root of a hash tree: the index is split into the bits of the path, and the hashes of the siblings on
the path come from the prover. An operation on a block checks the block against its hash.

The source's functions return nothing. Here they return the variables that the prover supplies and
the hash function reads (`Supplied`).
-/

namespace Pequin.Merkle
open Generator TwosComplement HashTree

def numLevels (dbSize : ℕ) : ℕ := Nat.clog 2 dbSize + 1

/-- What the prover supplies: the bits of a leaf or block, and the hashes of siblings. -/
structure Supplied where
  leaf : List Var
  siblings : List (List Var)

def Supplied.vars (e : Supplied) : List Var := e.leaf ++ e.siblings.flatten

section
variable (h : Hasher)

def getSiblingHashes (index : Var) (levels : ℕ) : Gen (List (List Var)) :=
  Gen.each (fun i => siblingHash index (i + 1) h.numHashBits) (List.range (levels - 1))

def genPathSteps : List (Var × List Var) → List Var → Gen (List Var)
  | [], nodeHash => final h.numElts nodeHash
  | (pathBit, siblingHash) :: steps, nodeHash => do
    let leftHash ← ifThenElseArray pathBit siblingHash nodeHash
    let rightHash ← ifThenElseArray pathBit nodeHash siblingHash
    let nodeHash ← h.hashChildren leftHash rightHash
    genPathSteps steps nodeHash

/-- The steps of a path from the leaf to the root: bit `i` of the path with sibling `i - 1`. -/
def pathSteps (pathBits : List Var) (siblingHashes : List (List Var)) : List (Var × List Var) :=
  ((pathBits.drop 1).zip siblingHashes).reverse

def genPath (leafHash pathBits : List Var) (siblingHashes : List (List Var)) : Gen (List Var) :=
  genPathSteps h (pathSteps pathBits siblingHashes) leafHash

def checkPathBits (rootHash leafBits pathBits : List Var) (siblingHashes : List (List Var)) :
    Gen Unit := do
  let leafHash ← h.hashValueBits leafBits
  let computedRootHash ← genPath h leafHash pathBits siblingHashes
  compareTo computedRootHash rootHash

def getBits (levels : ℕ) (rootHash : List Var) (index : Var) (outValues : List Var) :
    Gen Supplied := do
  dbGetBits index outValues
  let pathBits ← split index levels
  let siblingHashes ← getSiblingHashes h index levels
  checkPathBits h rootHash outValues pathBits siblingHashes
  pure ⟨outValues, siblingHashes⟩

def putBits (levels : ℕ) (rootHash : List Var) (index : Var) (values outRootHash : List Var) :
    Gen Supplied := do
  let oldLeaf ← Gen.each (fun _ => Gen.fresh) values
  dbGetBits index oldLeaf
  let pathBits ← split index levels
  let siblingHashes ← getSiblingHashes h index levels
  checkPathBits h rootHash oldLeaf pathBits siblingHashes
  dbPutBits index values
  let leafHash ← h.hashValueBits values
  let newRootHash ← genPath h leafHash pathBits siblingHashes
  compareTo outRootHash newRootHash
  pure ⟨oldLeaf, siblingHashes⟩

def multHash (hash : List Var) (val : Var) : Gen (List Var) :=
  Gen.each (fun elt => mult elt val) hash

/-- The constraints of `GetBlockByHash` after the bits of the value were asserted. -/
def checkBlock (expectedHash valueBits : List Var) : Gen Unit := do
  let valueHash ← h.hashValueBits valueBits
  let actualHash ← final h.numElts valueHash
  let hashSum ← sum expectedHash
  let actualHash ← multHash actualHash hashSum
  let expectedHash ← multHash expectedHash hashSum
  compareTo expectedHash actualHash

def getBlockByHashOp (hashBits valueBits : List Var) : Gen Supplied := do
  getBlockByHash hashBits valueBits
  let expectedHash ← final h.numElts hashBits
  let _ ← Gen.each ensureBit valueBits
  checkBlock h expectedHash valueBits
  pure ⟨valueBits, []⟩

/-! ## Templates -/

inductive Op where
  | getBits
  | putBits
  | getBlockByHash
  deriving DecidableEq, Repr

def genVars (numVars : ℕ) (v : ℕ → Ext) : List Var := (List.range numVars).map fun i => .ext (v i)

def genOp (dbSize numValVars : ℕ) : Op → Gen Supplied
  | .getBits => getBits h (numLevels dbSize) (genVars h.numElts .inHash) (.ext .index)
      (genVars numValVars .value)
  | .putBits => putBits h (numLevels dbSize) (genVars h.numElts .inHash) (.ext .index)
      (genVars numValVars .value) (genVars h.numElts .outHash)
  | .getBlockByHash => getBlockByHashOp h (genVars h.numHashBits .inHash)
      (genVars numValVars .value)

def template (dbSize numValVars : ℕ) (op : Op) : Emit Ext Cmd Supplied :=
  (newConstraintBuilder >>= fun _ => genOp h dbSize numValVars op) 0

end

def Satisfies {R : Type} [CommRing R] (z : Var → R) (e : Emit Ext Cmd Supplied) : Prop :=
  RowsHold z e.rows

section
variable {R : Type} [CommRing R] {z : Var → R} {h : Hasher}

theorem rowsHold_newConstraintBuilder : RowsHold z (newConstraintBuilder 0).rows ↔ Base z := by
  have hrows : (newConstraintBuilder 0).rows = [⟨[], [], [tn zero]⟩,
      ⟨[], [], [(1, none), tn one]⟩] := rfl
  have hone : (1 : R) + -z one = 0 ↔ z one = 1 := by rw [add_neg_eq_zero, eq_comm]
  rw [hrows]
  simp only [rowsHold_cons, rowsHold_nil, and_true, Row.eval, lin_nil, lin_cons, tn,
    Option.elim_none, Option.elim_some, Int.cast_one, Int.cast_neg, zero_mul, zero_add, add_zero,
    one_mul, neg_one_mul, neg_eq_zero, hone]
  exact ⟨fun h => ⟨h.1, h.2⟩, fun h => ⟨h.zero, h.one⟩⟩

/-- The rows of a template are those of its operation, with the two constants in place. -/
theorem satisfies_template {dbSize numValVars : ℕ} {op : Op} :
    Satisfies z (template h dbSize numValVars op) ↔
      Base z ∧ RowsHold z (genOp h dbSize numValVars op 2).rows := by
  have hrows : (template h dbSize numValVars op).rows =
      (newConstraintBuilder 0).rows ++ (genOp h dbSize numValVars op 2).rows := rfl
  rw [Satisfies, hrows, rowsHold_append, rowsHold_newConstraintBuilder]

end

/-! ## Paths -/

/-- The steps of a path hold the bits of `q`, from the low end, and the hashes `ss`. -/
def PathHolds {R : Type} [CommRing R] (z : Var → R) :
    ℕ → List (Var × List Var) → List (List ℤ) → Prop
  | _, [], [] => True
  | q, step :: steps, s :: ss =>
    z step.1 = (((q % 2 : ℕ) : ℤ) : R) ∧ Holds z step.2 s ∧ PathHolds z (q / 2) steps ss
  | _, _, _ => False

variable {ss : List (List ℤ)}

theorem pathHolds_zip {R : Type} [CommRing R] {z : Var → R} {bvars : List Var} {k q : ℕ}
    (hb : Holds z bvars (bitsOf k q)) {svars : List (List Var)}
    (hs : List.Forall₂ (Holds z) svars ss) (hk : svars.length = k) :
    PathHolds z q (bvars.zip svars) ss := by
  induction hs generalizing k q bvars with
  | nil =>
    rw [List.zip_nil_right]
    trivial
  | cons hsv _ ih =>
    obtain ⟨k, rfl⟩ : ∃ k', k = k' + 1 := ⟨_, hk.symm⟩
    cases bvars with
    | nil => cases hb
    | cons b bvars =>
      obtain ⟨hb, hbs⟩ := holds_cons.1 hb
      exact ⟨by exact_mod_cast hb, hsv, ih (by exact_mod_cast hbs) (Nat.succ.inj hk)⟩

/-- The bits of the index, from the low end and without the highest, are those of the path. -/
theorem pathHolds_pathSteps {R : Type} [CommRing R] {z : Var → R} {pathBits : List Var}
    {bs : List ℤ} (hbs : Bits bs) (hpath : Holds z pathBits bs) {sib : List (List Var)}
    (hsib : List.Forall₂ (Holds z) sib ss) (hlen : sib.length = bs.length - 1) :
    PathHolds z (unsigned bs.reverse).toNat (pathSteps pathBits sib) ss.reverse := by
  have hnonneg := (unsigned_bounds hbs.reverse).1
  have hlen' : (pathBits.drop 1).length = sib.length := by
    rw [List.length_drop, hpath.length_eq, hlen]
  have hzip : pathSteps pathBits sib = (pathBits.drop 1).reverse.zip sib.reverse := by
    rw [pathSteps, List.zip, List.reverse_zipWith hlen']
  have hlow : Holds z (pathBits.drop 1).reverse
      (bitsOf (bs.length - 1) ((unsigned bs.reverse).toNat : ℤ)) := by
    have hself := bitsOf_unsigned hbs.reverse
    have htake := (hpath.reverse).take (bs.length - 1)
    rw [List.length_reverse] at hself
    rw [List.take_reverse, hpath.length_eq] at htake
    rw [Int.toNat_of_nonneg hnonneg, ← take_bitsOf (Nat.sub_le bs.length 1), hself]
    rcases Nat.eq_zero_or_pos bs.length with h0 | hpos
    · have hnil : pathBits = [] := List.length_eq_zero_iff.1 (hpath.length_eq.trans h0)
      simp [hnil, h0]
    · rwa [Nat.sub_sub_self hpos] at htake
  rw [hzip]
  exact pathHolds_zip hlow (List.rel_reverse hsib) (by rw [List.length_reverse, hlen])

private theorem fst_children (q : ℕ) (x s : List ℤ) :
    (children q x s).1 = if ((q % 2 : ℕ) : ℤ) = 1 then s else x := by
  rcases Nat.mod_two_eq_zero_or_one q with h | h <;> simp [children, h]

private theorem snd_children (q : ℕ) (x s : List ℤ) :
    (children q x s).2 = if ((q % 2 : ℕ) : ℤ) = 1 then x else s := by
  rcases Nat.mod_two_eq_zero_or_one q with h | h <;> simp [children, h]

private theorem isBit_mod_two (q : ℕ) : IsBit ((q % 2 : ℕ) : ℤ) := by
  rcases Nat.mod_two_eq_zero_or_one q with h | h <;> simp [IsBit, h]

/-- What holds of a node and of its sibling holds of both children. -/
theorem children_all {H : Type} {P : H → Prop} {x s : H} (hx : P x) (hs : P s) (q : ℕ) :
    P (children q x s).1 ∧ P (children q x s).2 := by
  unfold children
  split
  · exact ⟨hx, hs⟩
  · exact ⟨hs, hx⟩

section
variable {h : Hasher} {S : h.Spec} {p : ℕ} [Fact p.Prime] {z : Var → ZMod p}
  (hS : S.Computes p) (hz : Base z)
include hS hz

/-- A path computes what the way up the tree does. -/
theorem sound_genPathSteps {q : ℕ} {steps : List (Var × List Var)} {ss : List (List ℤ)}
    (hsteps : PathHolds z q steps ss) (hss : ∀ s ∈ ss, Bits s ∧ s.length = h.numHashBits)
    {node : List Var} {x : List ℤ} (hnode : Holds z node x)
    (hx : Bits x ∧ x.length = h.numHashBits) : Sound z (genPathSteps h steps node) fun r =>
      Holds z r (pack h.numElts (climb S.node q x ss)) := by
  induction steps generalizing q ss node x with
  | nil =>
    cases ss with
    | nil => exact sound_final hz _ hnode
    | cons s ss => cases hsteps
  | cons step steps ih =>
    cases ss with
    | nil => cases hsteps
    | cons s ss =>
      obtain ⟨hbit, hsib, hsteps⟩ := hsteps
      obtain ⟨hs, hss⟩ := List.forall_mem_cons.1 hss
      obtain ⟨hleft, hright⟩ :=
        children_all (P := fun v => Bits v ∧ v.length = h.numHashBits) hx hs q
      refine .bind (sound_ifThenElseArray hz (isBit_mod_two q) hbit hsib hnode
        (hs.2.trans hx.2.symm)) fun l hl => ?_
      refine .bind (sound_ifThenElseArray hz (isBit_mod_two q) hbit hnode hsib
        (hx.2.trans hs.2.symm)) fun r hr => ?_
      rw [← fst_children] at hl
      rw [← snd_children] at hr
      refine .bind (hS.node z l r _ _ hz hl hr (S.nodeRange_of_bits hleft.1 hright.1))
        fun node' hnode' => ?_
      exact ih hsteps hss hnode'
        ⟨S.bits_node hleft.1 hright.1, S.length_node hleft.2 hright.2⟩

end

/-- The variables of a path are there already. -/
def StepsBelow (n : ℕ) (steps : List (Var × List Var)) : Prop :=
  ∀ st ∈ steps, st.1.Below n ∧ ∀ w ∈ st.2, w.Below n

variable {steps : List (Var × List Var)}

theorem StepsBelow.mono {n m : ℕ} (h : StepsBelow n steps) (hm : n ≤ m) : StepsBelow m steps :=
  fun st hst => ⟨(h st hst).1.mono hm, fun w hw => ((h st hst).2 w hw).mono hm⟩

theorem PathHolds.of_agree {n : ℕ} {s s' : Var → ℤ} (hagree : Agree n s s') {q : ℕ}
    (h : PathHolds s q steps ss) (hbelow : StepsBelow n steps) : PathHolds s' q steps ss := by
  induction steps generalizing q ss with
  | nil =>
    cases ss with
    | nil => trivial
    | cons s ss => cases h
  | cons step steps ih =>
    cases ss with
    | nil => cases h
    | cons v ss =>
      obtain ⟨⟨h1, h2⟩, hbelow⟩ := List.forall_mem_cons.1 hbelow
      refine ⟨(hagree _ h1).trans h.1, ?_, ih h.2.2 hbelow⟩
      rw [holds_int_iff, hagree.map_eq h2]
      exact holds_int_iff.1 h.2.1

/-- The prover's path. -/
theorem runs_genPathSteps {h : Hasher} {S : h.Spec} {env : Env} (hS : S.Executes env) {n : ℕ}
    {s : Var → ℤ} (hs : Base s) (hn : 2 ≤ n) {q : ℕ} (hsteps : PathHolds s q steps ss)
    (hbelow : StepsBelow n steps) (hss : ∀ v ∈ ss, v.length = h.numHashBits) {node : List Var}
    {x : List ℤ} (hnodeb : ∀ w ∈ node, w.Below n) (hnode : node.map s = x)
    (hlen : x.length = h.numHashBits) (hrange : ∀ pr ∈ climbPairs S.node q x ss, S.NodeRange pr) :
    Runs (machine env) (genPathSteps h steps node) n s fun r m s' =>
      (∀ w ∈ r, w.Below m) ∧ r.map s' = pack h.numElts (climb S.node q x ss) := by
  induction steps generalizing q ss node x n s with
  | nil =>
    cases ss with
    | nil => exact hnode ▸ runs_final env _ hs hn hnodeb
    | cons v ss => cases hsteps
  | cons step steps ih =>
    cases ss with
    | nil => cases hsteps
    | cons v ss =>
      obtain ⟨hbit, hsib, hsteps⟩ := hsteps
      obtain ⟨⟨hbitb, hsibb⟩, hbelow⟩ := List.forall_mem_cons.1 hbelow
      obtain ⟨hvlen, hss⟩ := List.forall_mem_cons.1 hss
      obtain ⟨hpair, hrange⟩ := List.forall_mem_cons.1 hrange
      rw [holds_int_iff] at hsib
      have hlens : step.2.length = node.length := by
        rw [← List.length_map s, hsib, hvlen, ← hlen, ← hnode, List.length_map]
      obtain ⟨hllen, hrlen⟩ := children_all (P := fun v : List ℤ => v.length =
        h.numHashBits) hlen hvlen q
      refine .bind (runs_ifThenElseArray env hs hn (isBit_mod_two q) hbitb (by exact_mod_cast hbit)
        hsibb hnodeb hlens) fun l m₁ s₁ hm₁ hs₁ ⟨hlb, hl⟩ => ?_
      rw [hsib, hnode, ← fst_children] at hl
      refine .bind (runs_ifThenElseArray env (hs.of_agree hn hs₁) (hn.trans hm₁) (isBit_mod_two q)
        (hbitb.mono hm₁) (by rw [hs₁ _ hbitb]; exact_mod_cast hbit)
        (fun w hw => (hnodeb w hw).mono hm₁) (fun w hw => (hsibb w hw).mono hm₁) hlens.symm)
        fun r m₂ s₂ hm₂ hs₂ ⟨hrb, hr⟩ => ?_
      rw [hs₁.map_eq hsibb, hs₁.map_eq hnodeb, hsib, hnode, ← snd_children] at hr
      have hl' : l.map s₂ = (children q x v).1 := by rw [hs₂.map_eq hlb, hl]
      have hagree₂ : Agree n s s₂ := hs₁.trans hs₂ hm₁
      have hn₂ : 2 ≤ m₂ := (hn.trans hm₁).trans hm₂
      have hrun := hS.node m₂ s₂ l r hn₂ (hs.of_agree hn hagree₂)
        (fun w hw => (hlb w hw).mono hm₂) hrb (by
          rw [hl', hr]
          exact hpair)
      rw [hl', hr] at hrun
      refine .bind hrun fun node' m₃ s₃ hm₃ hs₃ ⟨hnodeb', hnode'⟩ => ?_
      have hagree₃ : Agree n s s₃ := hagree₂.trans hs₃ (hm₁.trans hm₂)
      exact ih (hs.of_agree hn hagree₃) (hn₂.trans hm₃) (hsteps.of_agree hagree₃ hbelow)
        (StepsBelow.mono hbelow ((hm₁.trans hm₂).trans hm₃)) hss hnodeb' hnode'
        (S.length_node hllen hrlen) hrange

/-- A way up from bits has pairs in range. -/
theorem nodeRange_climbPairs {h : Hasher} (S : h.Spec) {x : List ℤ} (hx : Bits x)
    (hss : ∀ s ∈ ss, Bits s) (i : ℕ) : ∀ pr ∈ climbPairs S.node i x ss, S.NodeRange pr := by
  induction ss generalizing x i with
  | nil => exact fun _ hpr => absurd hpr List.not_mem_nil
  | cons s ss ih =>
    obtain ⟨hs, hss⟩ := List.forall_mem_cons.1 hss
    obtain ⟨hl, hr⟩ := children_all hx hs i
    intro pr hpr
    rcases List.mem_cons.1 hpr with rfl | hpr
    · exact S.nodeRange_of_bits hl hr
    · exact ih (S.bits_node hl hr) hss _ pr hpr

end Pequin.Merkle
