import Mathlib.Tactic.NormNum.Prime
import Pequin.Merkle.PathRuns

/-!
# Reading and writing a cell against a root

An index is split into one bit more than a path has steps: the first bit of the path is never read.
A satisfying assignment may therefore use an index from `2^l` on, and then it reads or writes the
cell whose number is the index modulo `2^l`.
-/

namespace Pequin.Merkle
open Generator TwosComplement HashTree

theorem numLevels_two_pow (l : ℕ) : numLevels (2 ^ l) = l + 1 := by
  rw [numLevels, Nat.clog_pow 2 l one_lt_two]

section
variable {p : ℕ} [Fact p.Prime]

def bitsHeld (z : Var → ZMod p) (vars : List Var) : List ℤ :=
  vars.map fun w => if z w = 1 then 1 else 0

theorem holds_bitsHeld {z : Var → ZMod p} {vars : List Var} (h : ∀ w ∈ vars, z w = 0 ∨ z w = 1) :
    Holds z vars (bitsHeld z vars) := by
  unfold Holds bitsHeld
  rw [List.map_map]
  refine List.map_congr_left fun w hw => ?_
  rcases h w hw with h | h <;> simp [h]

theorem bits_bitsHeld (z : Var → ZMod p) (vars : List Var) : Bits (bitsHeld z vars) := by
  intro b hb
  obtain ⟨w, -, rfl⟩ := List.mem_map.1 hb
  split
  · exact .inr rfl
  · exact .inl rfl

theorem length_bitsHeld (z : Var → ZMod p) (vars : List Var) :
    (bitsHeld z vars).length = vars.length := List.length_map _

/-- Lists of integers that are told apart by their residues. -/
theorem holds_unique {z : Var → ZMod p} {vars : List Var} {xs ys : List ℤ} (hx : Holds z vars xs)
    (hy : Holds z vars ys) : xs.map (Int.cast : ℤ → ZMod p) = ys.map Int.cast := hx.symm.trans hy

end

/-! ## The check of a path -/

section
variable {h : Hasher} {S : h.Spec} {p : ℕ} [Fact p.Prime] {z : Var → ZMod p}

/-- The hashes of the siblings from the lowest level on. -/
def siblingBits (z : Var → ZMod p) (e : Supplied) : List (List ℤ) :=
  (e.siblings.map (bitsHeld z)).reverse

omit [Fact p.Prime] in
theorem sound_getSiblingHashes (index : Var) (levels : ℕ) :
    Sound z (getSiblingHashes h index levels) fun sib =>
      sib.length = levels - 1 ∧ ∀ s ∈ sib, s.length = h.numHashBits := by
  refine (Sound.each (P := fun _ s => s.length = h.numHashBits) _ fun i _ => ?_).mono
    fun sib hsib => ?_
  · refine .bind (Sound.each (P := fun _ _ => True) _ fun _ _ => Sound.trivial _) fun xs hxs => ?_
    refine .bind (Sound.trivial _) fun _ _ => .pure ?_
    rw [← hxs.length_eq, List.length_range]
  · refine ⟨by rw [← hsib.length_eq, List.length_range], ?_⟩
    generalize List.range (levels - 1) = l at hsib
    induction hsib with
    | nil => exact List.forall_mem_nil _
    | cons hb _ ih => exact List.forall_mem_cons.2 ⟨hb, ih⟩

variable {pathBits : List Var} {bs : List ℤ} {e : Supplied}

theorem pathHolds_siblingBits (hbs : Bits bs) (hpath : Holds z pathBits bs)
    (hlen : e.siblings.length = bs.length - 1)
    (hsib : ∀ s ∈ e.siblings, ∀ w ∈ s, z w = 0 ∨ z w = 1) :
    PathHolds z (unsigned bs.reverse).toNat (pathSteps pathBits e.siblings) (siblingBits z e) :=
  pathHolds_pathSteps hbs hpath (List.forall₂_map_right_iff.2 (List.forall₂_same.2 fun s hs =>
    holds_bitsHeld (hsib s hs))) hlen

theorem bits_siblingBits (z : Var → ZMod p) (hlen : ∀ s ∈ e.siblings, s.length = h.numHashBits) :
    ∀ s ∈ siblingBits z e, Bits s ∧ s.length = h.numHashBits := by
  intro s hs
  obtain ⟨vars, hvars, rfl⟩ := List.mem_map.1 (List.mem_reverse.1 hs)
  exact ⟨bits_bitsHeld z vars, (length_bitsHeld z vars).trans (hlen vars hvars)⟩

variable (S) in
/-- The root is what the path from the supplied leaf computes. -/
structure Opened (z : Var → ZMod p) (levels : ℕ) (index : Var) (root : List Var) (leaf : List ℤ)
    (e : Supplied) : Prop where
  index_lt : (z index).val < 2 ^ levels
  length_siblings : e.siblings.length = levels - 1
  length_sibling : ∀ s ∈ e.siblings, s.length = h.numHashBits
  root : Holds z root (pack h.numElts (climb S.node (z index).val (S.leaf leaf) (siblingBits z e)))

theorem Opened.of_eq {levels levels' : ℕ} {index : Var} {root : List Var} {leaf : List ℤ}
    (hopen : Opened S z levels index root leaf e) (heq : levels = levels') :
    Opened S z levels' index root leaf e := heq ▸ hopen

variable (hS : S.Computes p) (hz : Base z)
include hS hz

section
variable (hbs : Bits bs) (hpath : Holds z pathBits bs) (hlen : e.siblings.length = bs.length - 1)
  (hlens : ∀ s ∈ e.siblings, s.length = h.numHashBits)
  (hsib : ∀ s ∈ e.siblings, ∀ w ∈ s, z w = 0 ∨ z w = 1) {xs : List ℤ} (hxs : Bits xs)
include hbs hpath hlen hlens hsib hxs

theorem sound_genPath {leafHash : List Var} (hleaf : Holds z leafHash (S.leaf xs)) :
    Sound z (genPath h leafHash pathBits e.siblings) fun r => Holds z r (pack h.numElts
      (climb S.node (unsigned bs.reverse).toNat (S.leaf xs) (siblingBits z e))) :=
  sound_genPathSteps hS hz (pathHolds_siblingBits hbs hpath hlen hsib)
    (bits_siblingBits z hlens) hleaf
    ⟨S.bits_leaf hxs, S.length_leaf xs⟩

theorem sound_checkPathBits {root : List Var} (hroot : root.length = h.numElts)
    {leafBits : List Var} (hleaf : Holds z leafBits xs) :
    Sound z (checkPathBits h root leafBits pathBits e.siblings) fun _ => Holds z root
      (pack h.numElts (climb S.node (unsigned bs.reverse).toNat (S.leaf xs)
        (siblingBits z e))) := by
  refine .bind (hS.leaf z leafBits xs hz hleaf (S.leafRange_of_bits hxs)) fun leafHash hhash => ?_
  refine .bind (sound_genPath hS hz hbs hpath hlen hlens hsib hxs hhash) fun r hr => ?_
  have hrlen : r.length = root.length := by rw [hr.length_eq, length_pack, hroot]
  refine (sound_compareTo hz hrlen).mono fun _ heq => ?_
  unfold Holds at hr ⊢
  rw [← heq, hr]

end

omit hS hz in
theorem Supplied.forall_vars {leaf : List Var} {sib : List (List Var)}
    (hbits : ∀ w ∈ (Supplied.mk leaf sib).vars, z w = 0 ∨ z w = 1) :
    (∀ w ∈ leaf, z w = 0 ∨ z w = 1) ∧ ∀ s ∈ sib, ∀ w ∈ s, z w = 0 ∨ z w = 1 :=
  ⟨fun w hw => hbits w (List.mem_append_left _ hw), fun s hs w hw =>
    hbits w (List.mem_append_right _ (List.mem_flatten.2 ⟨s, hs, hw⟩))⟩

omit hS hz in
private theorem val_index {levels : ℕ} (hp : 2 ^ levels ≤ p) {index : Var} (hbs : Bits bs)
    (hlen : bs.length = levels) (hval : z index = ((unsigned bs.reverse : ℤ) : ZMod p)) :
    (z index).val = (unsigned bs.reverse).toNat ∧ (z index).val < 2 ^ levels := by
  obtain ⟨hlo, hhi⟩ := unsigned_bounds hbs.reverse
  rw [List.length_reverse, hlen] at hhi
  have hnat : ((unsigned bs.reverse).toNat : ℤ) = unsigned bs.reverse := Int.toNat_of_nonneg hlo
  have hlt : (unsigned bs.reverse).toNat < 2 ^ levels := by
    zify
    rw [hnat]
    exact hhi
  have hcast : z index = (((unsigned bs.reverse).toNat : ℕ) : ZMod p) := by
    rw [hval, ← Int.cast_natCast, hnat]
  have heq : (z index).val = (unsigned bs.reverse).toNat := by
    rw [hcast, ZMod.val_natCast, Nat.mod_eq_of_lt (hlt.trans_le hp)]
  exact ⟨heq, heq ▸ hlt⟩

/-- A read that satisfies the constraints opens the path to its root. -/
theorem sound_getBits {levels : ℕ} (hp : 2 ^ levels ≤ p) {root : List Var}
    (hroot : root.length = h.numElts) (index : Var) (values : List Var) :
    Sound z (getBits h levels root index values) fun e => e.leaf = values ∧
      ((∀ w ∈ e.vars, z w = 0 ∨ z w = 1) →
        Opened S z levels index root (bitsHeld z values) e) := by
  refine .bind (Sound.trivial _) fun _ _ => .bind (sound_split hz index levels) fun pathBits
    ⟨bs, hbs, hbslen, hpath, hval⟩ => ?_
  refine .bind (sound_getSiblingHashes index levels) fun sib ⟨hsib, hsibs⟩ => ?_
  by_cases hbits : ∀ w ∈ (Supplied.mk values sib).vars, z w = 0 ∨ z w = 1
  · obtain ⟨hleaf, hsibbits⟩ := Supplied.forall_vars hbits
    obtain ⟨hidx, hlt⟩ := val_index hp hbs hbslen hval
    refine .bind (sound_checkPathBits (e := ⟨values, sib⟩) hS hz hbs hpath (by rw [hbslen, hsib])
      hsibs hsibbits (bits_bitsHeld z values) hroot (holds_bitsHeld hleaf)) fun _ hcheck => ?_
    rw [← hidx] at hcheck
    exact .pure ⟨rfl, fun _ => ⟨hlt, hsib, hsibs, hcheck⟩⟩
  · exact .bind (Sound.trivial _) fun _ _ => .pure ⟨rfl, fun hbits' => absurd hbits' hbits⟩

/-- A write that satisfies the constraints opens the path to its root, and its new root is what the
same path computes from the new value. -/
theorem sound_putBits {levels : ℕ} (hp : 2 ^ levels ≤ p) {root outRoot : List Var}
    (hroot : root.length = h.numElts) (hout : outRoot.length = h.numElts) (index : Var)
    (values : List Var) (hvalues : ∀ w ∈ values, z w = 0 ∨ z w = 1) :
    Sound z (putBits h levels root index values outRoot) fun e =>
      (∀ w ∈ e.vars, z w = 0 ∨ z w = 1) →
        Opened S z levels index root (bitsHeld z e.leaf) e ∧
        Holds z outRoot (pack h.numElts
          (climb S.node (z index).val (S.leaf (bitsHeld z values)) (siblingBits z e))) := by
  refine .bind (Sound.trivial _) fun oldLeaf _ => .bind (Sound.trivial _) fun _ _ => ?_
  refine .bind (sound_split hz index levels) fun pathBits ⟨bs, hbs, hbslen, hpath, hval⟩ => ?_
  refine .bind (sound_getSiblingHashes index levels) fun sib ⟨hsib, hsibs⟩ => ?_
  by_cases hbits : ∀ w ∈ (Supplied.mk oldLeaf sib).vars, z w = 0 ∨ z w = 1
  · obtain ⟨hleaf, hsibbits⟩ := Supplied.forall_vars hbits
    have hlen : (Supplied.mk oldLeaf sib).siblings.length = bs.length - 1 := by rw [hbslen, hsib]
    obtain ⟨hidx, hlt⟩ := val_index hp hbs hbslen hval
    refine .bind (sound_checkPathBits (e := ⟨oldLeaf, sib⟩) hS hz hbs hpath hlen hsibs hsibbits
      (bits_bitsHeld z oldLeaf) hroot (holds_bitsHeld hleaf)) fun _ hcheck => ?_
    refine .bind (Sound.trivial _) fun _ _ => ?_
    refine .bind (hS.leaf z values _ hz (holds_bitsHeld hvalues)
      (S.leafRange_of_bits (bits_bitsHeld z values))) fun leafHash hhash => ?_
    refine .bind (sound_genPath (e := ⟨oldLeaf, sib⟩) hS hz hbs hpath hlen hsibs hsibbits
      (bits_bitsHeld z values) hhash) fun r hr => ?_
    have hrlen : outRoot.length = r.length := by rw [hr.length_eq, length_pack, hout]
    refine .bind (sound_compareTo hz hrlen) fun _ heq => .pure fun _ => ?_
    rw [← hidx] at hcheck hr
    refine ⟨⟨hlt, hsib, hsibs, hcheck⟩, ?_⟩
    unfold Holds at hr ⊢
    rw [heq, hr]
  · refine .bind (Sound.trivial _) fun _ _ => .bind (Sound.trivial _) fun _ _ => ?_
    refine .bind (Sound.trivial _) fun _ _ => .bind (Sound.trivial _) fun _ _ => ?_
    exact .bind (Sound.trivial _) fun _ _ => .pure fun hbits' => absurd hbits' hbits

end

/-! ## Collisions -/

section
variable {h : Hasher} (S : h.Spec) {p : ℕ} [Fact p.Prime]

/-- The hash of node `i` of height `n` of the tree over the cells. -/
abbrev treeHash (cells : ℕ → List ℤ) (n i : ℕ) : List ℤ := subtree S.leaf S.node cells n i

section
variable (l : ℕ) (cells : ℕ → List ℤ) (index : ℕ)

/-- The siblings of a cell, where only the low bits of the index count. -/
abbrev cellSiblings : List (List ℤ) :=
  siblings S.leaf S.node cells l 0 (index % 2 ^ l)

theorem climb_cell : climb S.node index (S.leaf (cells (index % 2 ^ l)))
    (cellSiblings S l cells index) = treeHash S cells l 0 := by
  have hmod := climb_mod S.node index (S.leaf (cells (index % 2 ^ l)))
    (cellSiblings S l cells index)
  rw [HashTree.length_siblings] at hmod
  rw [← hmod, ← subtree_zero S.leaf S.node, climb_siblings,
    Nat.div_eq_of_lt (Nat.mod_lt _ (by positivity)), Nat.zero_add]

/-- The way up from a value in the place of a cell is one of the tree with that value. -/
theorem climbPairs_update (v : List ℤ) :
    ∀ pr ∈ climbPairs S.node index (S.leaf v) (cellSiblings S l cells index),
      pr ∈ treePairs S.leaf S.node (Function.update cells (index % 2 ^ l) v) l := by
  intro pr hpr
  have hmod := climbPairs_mod S.node index (S.leaf v) (cellSiblings S l cells index)
  have hleaf : S.leaf v = treeHash S (Function.update cells (index % 2 ^ l) v) 0
    (index % 2 ^ l) := by
    rw [treeHash, subtree_zero, Function.update_self]
  rw [HashTree.length_siblings] at hmod
  rw [← hmod, cellSiblings, ← siblings_update cells _ v, hleaf] at hpr
  exact climbPairs_siblings _ (Nat.zero_add l).le (Nat.mod_lt _ (by positivity)) pr hpr

theorem climbPairs_cell :
    ∀ pr ∈ climbPairs S.node index (S.leaf (cells (index % 2 ^ l))) (cellSiblings S l cells index),
      pr ∈ treePairs S.leaf S.node cells l := by
  have hpairs := climbPairs_update S l cells index (cells (index % 2 ^ l))
  rwa [Function.update_eq_self] at hpairs

end

/-- Nothing that the tree of height `l` over the cells hashes collides with anything that an
assignment hashes on its path. A root is compared by its field elements. -/
structure NoCollision (cells : ℕ → List ℤ) (l : ℕ) (z : Var → ZMod p) (index : Var)
    (e : Supplied) : Prop where
  leaf : Set.InjOn S.leaf ({bitsHeld z e.leaf} ∪ cells '' {k | k < 2 ^ l})
  node : Set.InjOn (fun pr : List ℤ × List ℤ => S.node pr.1 pr.2)
    ({pr | pr ∈ climbPairs S.node (z index).val (S.leaf (bitsHeld z e.leaf)) (siblingBits z e)} ∪
      treePairs S.leaf S.node cells l)
  final : Set.InjOn (fun bs => (pack h.numElts bs).map (Int.cast : ℤ → ZMod p))
    {climb S.node (z index).val (S.leaf (bitsHeld z e.leaf)) (siblingBits z e),
      treeHash S cells l 0}

variable {S}

section
variable {z : Var → ZMod p} {l : ℕ} {index : Var} {root : List Var} {e : Supplied}
  (hopen : Opened S z (l + 1) index root (bitsHeld z e.leaf) e) {cells : ℕ → List ℤ}
  (hroot : Holds z root (pack h.numElts (treeHash S cells l 0)))
  (hnc : NoCollision S cells l z index e)
include hopen hroot hnc

/-- A path that opens the root of a tree opens it at the cell that the low bits of the index
number. -/
theorem Opened.cell_eq :
    bitsHeld z e.leaf = cells ((z index).val % 2 ^ l) ∧
      siblingBits z e = siblings S.leaf S.node cells l 0 ((z index).val % 2 ^ l) := by
  have htop : climb S.node (z index).val (S.leaf (bitsHeld z e.leaf)) (siblingBits z e) =
      treeHash S cells l 0 :=
    hnc.final (.inl rfl) (.inr rfl) (holds_unique hopen.root hroot)
  have hlen : (siblingBits z e).length = (cellSiblings S l cells (z index).val).length := by
    rw [HashTree.length_siblings, siblingBits, List.length_reverse, List.length_map,
      hopen.length_siblings, Nat.add_sub_cancel]
  obtain ⟨hleaf, hsib⟩ := climb_inj hnc.node hlen (fun pr hpr => .inl hpr)
    (fun pr hpr => .inr (climbPairs_cell S l cells _ pr hpr))
      (htop.trans (climb_cell S l cells _).symm)
  exact ⟨hnc.leaf (.inl rfl) (.inr ⟨_, Nat.mod_lt _ (by positivity), rfl⟩) hleaf, hsib⟩

/-- The new root of a write is the root of the tree with the cell replaced. -/
theorem Opened.update_eq (v : List ℤ) :
    climb S.node (z index).val (S.leaf v) (siblingBits z e) =
      treeHash S (Function.update cells ((z index).val % 2 ^ l) v) l 0 := by
  obtain ⟨-, hsib⟩ := hopen.cell_eq hroot hnc
  have hcell := climb_cell S l (Function.update cells ((z index).val % 2 ^ l) v) (z index).val
  rwa [Function.update_self, cellSiblings, siblings_update, ← hsib] at hcell

end

variable (S) in
/-- An assignment satisfies the template of an operation, `VAR_INHASH` is the root of the tree of
height `l` over the cells, all variables that are hashed are bits, and there is no collision. -/
structure OverTree (l numValVars : ℕ) (op : Op) (cells : ℕ → List ℤ) (z : Var → ZMod p) : Prop where
  satisfies : Satisfies z (template h (2 ^ l) numValVars op)
  root : Holds z (genVars h.numElts .inHash) (pack h.numElts (treeHash S cells l 0))
  supplied : ∀ w ∈ (template h (2 ^ l) numValVars op).val.vars, z w = 0 ∨ z w = 1
  values : ∀ w ∈ genVars numValVars .value, z w = 0 ∨ z w = 1
  noCollision : NoCollision S cells l z (.ext .index) (template h (2 ^ l) numValVars op).val

variable (hS : S.Computes p) {l numValVars : ℕ} (hp : 2 ^ (l + 1) < p) {cells : ℕ → List ℤ}
  {z : Var → ZMod p}
include hS hp

theorem OverTree.opened_getBits (hz : OverTree S l numValVars .getBits cells z) :
    (template h (2 ^ l) numValVars .getBits).val.leaf = genVars numValVars .value ∧
      Opened S z (l + 1) (.ext .index) (genVars h.numElts .inHash)
        (bitsHeld z (genVars numValVars .value)) (template h (2 ^ l) numValVars .getBits).val := by
  obtain ⟨hbase, hrows⟩ := satisfies_template.1 hz.satisfies
  have hlen : (genVars h.numElts .inHash).length = h.numElts := by simp [genVars]
  have hlevels : 2 ^ numLevels (2 ^ l) ≤ p := by rw [numLevels_two_pow]; exact hp.le
  have hsound := sound_getBits hS hbase hlevels hlen (.ext .index)
    (genVars numValVars .value) 2 hrows
  exact ⟨hsound.1, (hsound.2 hz.supplied).of_eq (numLevels_two_pow l)⟩

theorem OverTree.opened_putBits (hz : OverTree S l numValVars .putBits cells z) :
    Opened S z (l + 1) (.ext .index) (genVars h.numElts .inHash)
        (bitsHeld z (template h (2 ^ l) numValVars .putBits).val.leaf)
        (template h (2 ^ l) numValVars .putBits).val ∧
      Holds z (genVars h.numElts .outHash) (pack h.numElts (climb S.node (z (.ext .index)).val
        (S.leaf (bitsHeld z (genVars numValVars .value)))
        (siblingBits z (template h (2 ^ l) numValVars .putBits).val))) := by
  obtain ⟨hbase, hrows⟩ := satisfies_template.1 hz.satisfies
  have hlen : ∀ v : ℕ → Ext, (genVars h.numElts v).length = h.numElts := by simp [genVars]
  have hlevels : 2 ^ numLevels (2 ^ l) ≤ p := by rw [numLevels_two_pow]; exact hp.le
  have hsound := sound_putBits hS hbase hlevels (hlen _) (hlen _) (.ext .index)
    (genVars numValVars .value) hz.values 2 hrows hz.supplied
  exact ⟨hsound.1.of_eq (numLevels_two_pow l), hsound.2⟩

omit hS in
private theorem val_eq {k : ℕ} (hk : k < 2 ^ l) {x : ZMod p} (hx : x = (k : ZMod p)) :
    x.val % 2 ^ l = k := by
  have hlt : k < p := lt_trans (lt_trans hk (Nat.pow_lt_pow_right one_lt_two l.lt_succ_self)) hp
  rw [hx, ZMod.val_natCast, Nat.mod_eq_of_lt hlt, Nat.mod_eq_of_lt hk]

/-- In every satisfying assignment a read returns the cell that its index numbers, and a write
replaces it, exactly when the index is below the size of the database. -/
theorem path_sound_iff_index_lt :
    (OverTree S l numValVars .getBits cells z →
      ((∃ k : ℕ, k < 2 ^ l ∧ z (.ext .index) = (k : ZMod p) ∧ Holds z (genVars numValVars .value)
        (cells k)) ↔ ∃ k : ℕ, k < 2 ^ l ∧ z (.ext .index) = (k : ZMod p))) ∧
    (OverTree S l numValVars .putBits cells z →
      ((∃ k : ℕ, k < 2 ^ l ∧ z (.ext .index) = (k : ZMod p) ∧ Holds z (genVars h.numElts .outHash)
        (pack h.numElts (treeHash S
          (Function.update cells k (bitsHeld z (genVars numValVars .value))) l 0))) ↔
        ∃ k : ℕ, k < 2 ^ l ∧ z (.ext .index) = (k : ZMod p))) := by
  refine ⟨fun hz => ⟨fun ⟨k, hk, hidx, _⟩ => ⟨k, hk, hidx⟩, fun ⟨k, hk, hidx⟩ => ⟨k, hk, hidx, ?_⟩⟩,
    fun hz => ⟨fun ⟨k, hk, hidx, _⟩ => ⟨k, hk, hidx⟩, fun ⟨k, hk, hidx⟩ => ⟨k, hk, hidx, ?_⟩⟩⟩
  · obtain ⟨hleaf, hopen⟩ := hz.opened_getBits hS hp
    rw [← hleaf] at hopen
    have hcell := (hopen.cell_eq hz.root hz.noCollision).1
    rw [hleaf, val_eq hp hk hidx] at hcell
    rw [← hcell]
    exact holds_bitsHeld hz.values
  · obtain ⟨hopen, hout⟩ := hz.opened_putBits hS hp
    rw [hopen.update_eq hz.root hz.noCollision, val_eq hp hk hidx] at hout
    exact hout

end

/-! ## Databases that hold the tree -/

section
variable {h : Hasher} {S : h.Spec} {l numValVars : ℕ} {cells : ℕ → List ℤ} {index : ℕ} {p : ℕ}
  [Fact p.Prime]

variable (S l cells) in
/-- A database that holds the cells and answers with the hashes of their tree. -/
def treeEnv : Env where
  aMat _ _ := 0
  ram address := cells (address % 2 ^ l)
  numHashBits := h.numHashBits
  siblingHash address i := ((cellSiblings S l cells address).reverse.getD (i - 1) []).reverse
  block _ := []

variable (S l numValVars cells) in
/-- Cells of `numValVars` bits whose tree has no collision. The database numbers cells by 32
bits. -/
structure CollisionFree : Prop where
  le : l ≤ 32
  bits : ∀ k, Bits (cells k)
  length : ∀ k, (cells k).length = numValVars
  leaf : Set.InjOn S.leaf (cells '' {k | k < 2 ^ l})
  node : Set.InjOn (fun pr : List ℤ × List ℤ => S.node pr.1 pr.2) (treePairs S.leaf S.node cells l)

theorem bits_treeHash (hcells : ∀ k, Bits (cells k)) (n i : ℕ) :
    Bits (treeHash S cells n i) ∧ (treeHash S cells n i).length = h.numHashBits := by
  induction n generalizing i with
  | zero => exact ⟨S.bits_leaf (hcells i), S.length_leaf _⟩
  | succ n ih => exact ⟨S.bits_node (ih _).1 (ih _).1, S.length_node (ih _).2 (ih _).2⟩

theorem bitsHeld_cast {s : Var → ℤ} {vars : List Var} (hbits : Bits (vars.map s)) :
    bitsHeld (fun w => (s w : ZMod p)) vars = vars.map s := by
  refine List.map_congr_left fun w hw => ?_
  rcases hbits _ (List.mem_map_of_mem hw) with hw | hw <;> simp [hw]

theorem cast_bit {s : Var → ℤ} {vars : List Var} (hbits : Bits (vars.map s)) :
    ∀ w ∈ vars, (s w : ZMod p) = 0 ∨ (s w : ZMod p) = 1 := by
  intro w hw
  rcases hbits _ (List.mem_map_of_mem hw) with hw | hw <;> simp [hw]

namespace CollisionFree

variable (hT : CollisionFree S l numValVars cells)
include hT

theorem bits_siblings :
    ∀ bs ∈ cellSiblings S l cells index, Bits bs ∧ bs.length = h.numHashBits := by
  intro bs hbs
  rw [cellSiblings, siblings_eq_map] at hbs
  obtain ⟨i, -, rfl⟩ := List.mem_map.1 hbs
  exact bits_treeHash hT.bits _ _

theorem address_mod (index : ℕ) : Env.address index % 2 ^ l = index % 2 ^ l := by
  rw [Env.address, Int.natAbs_natCast, Nat.mod_mod_of_dvd _ (pow_dvd_pow 2 hT.le)]

theorem siblings_treeEnv (index : ℕ) :
    (treeEnv S l cells).siblings (Env.address index) (numLevels (2 ^ l)) =
      (cellSiblings S l cells index).reverse := by
  rw [Env.siblings, numLevels_two_pow, cellSiblings, ← hT.address_mod]
  refine List.ext_getElem (by simp [HashTree.length_siblings]) fun i h1 h2 => ?_
  simp only [List.getElem_map, List.getElem_range, treeEnv, List.reverse_reverse,
    Nat.add_sub_cancel]
  exact (List.getElem_eq_getD []).symm

theorem answers (hi : index < 2 ^ (l + 1)) {v : List ℤ} (hv : Bits v) :
    Answers S (treeEnv S l cells) (numLevels (2 ^ l)) index v where
  index_lt := by rwa [numLevels_two_pow]
  numHashBits := rfl
  length_siblingHash i hi := by
    have hlt : i < (cellSiblings S l cells (Env.address index)).reverse.length := by
      rw [numLevels_two_pow] at hi
      simpa [HashTree.length_siblings] using hi
    simp only [treeEnv, List.length_reverse, Nat.add_sub_cancel]
    rw [List.getD_eq_getElem _ _ hlt]
    exact (hT.bits_siblings _ (List.mem_reverse.1 (List.getElem_mem hlt))).2
  leafRange := S.leafRange_of_bits hv
  nodeRange pr hpr := by
    rw [hT.siblings_treeEnv, List.reverse_reverse] at hpr
    have hbits : ∀ k, Bits (Function.update cells (index % 2 ^ l) v k) := by
      intro k
      rw [Function.update_apply]
      split
      · exact hv
      · exact hT.bits k
    obtain ⟨n, i, -, -, rfl⟩ := climbPairs_update S l cells index v pr hpr
    exact S.nodeRange_of_bits (bits_treeHash hbits _ _).1 (bits_treeHash hbits _ _).1

/-- What the database fills in is an assignment over its tree. -/
theorem overTree {values : List ℤ} {op : Op} {s : Var → ℤ} (hvalues : Bits values)
    (hf : Filled S (treeEnv S l cells) (2 ^ l) index (cells (index % 2 ^ l)) values op s)
    (hi : index < p) : OverTree S l values.length op cells (fun w => (s w : ZMod p)) := by
  have hk : index % 2 ^ l < 2 ^ l := Nat.mod_lt _ (by positivity)
  have hsib := hf.supplied.siblings
  rw [hT.siblings_treeEnv] at hsib
  have hbits : ∀ vars ∈ (template h (2 ^ l) values.length op).val.siblings, Bits (vars.map s) := by
    intro vars hvars
    have hmem := List.mem_map_of_mem (f := fun b => b.map s) hvars
    rw [hsib, List.mem_reverse] at hmem
    exact (hT.bits_siblings _ hmem).1
  have hbitsLeaf : Bits ((template h (2 ^ l) values.length op).val.leaf.map s) :=
    hf.supplied.leaf ▸ hT.bits _
  have hheld := (bitsHeld_cast (p := p) hbitsLeaf).trans hf.supplied.leaf
  have hsibs : siblingBits (fun w => (s w : ZMod p)) (template h (2 ^ l) values.length op).val =
      cellSiblings S l cells index := by
    rw [siblingBits, List.map_congr_left fun vars hvars => bitsHeld_cast (hbits vars hvars), hsib,
      List.reverse_reverse]
  have hval : ((s (.ext .index) : ℤ) : ZMod p).val = index := by
    rw [hf.index_eq, Int.cast_natCast, ZMod.val_natCast, Nat.mod_eq_of_lt hi]
  refine ⟨hf.satisfies.cast _, ?_, ?_, cast_bit (hf.values_eq.symm ▸ hvalues), ?_, ?_, ?_⟩
  · have hroot := hf.root_eq
    rw [Env.rootBits, hT.siblings_treeEnv, List.reverse_reverse, climb_cell] at hroot
    exact holds_cast hroot _
  · intro w hw
    rcases List.mem_append.1 hw with hw | hw
    · exact cast_bit hbitsLeaf w hw
    · obtain ⟨vars, hvars, hw⟩ := List.mem_flatten.1 hw
      exact cast_bit (hbits vars hvars) w hw
  · rw [hheld]
    exact hT.leaf.mono (Set.union_subset (Set.singleton_subset_iff.2 (Set.mem_image_of_mem _ hk))
      subset_rfl)
  · rw [hheld, hsibs, hval]
    exact hT.node.mono (Set.union_subset (climbPairs_cell S l cells index) subset_rfl)
  · rw [hheld, hsibs, hval, climb_cell, Set.pair_eq_singleton]
    exact Set.injOn_singleton _ _

variable (p) in
/-- Every read and every write of the database is satisfiable, also with an index from `2^l` on. -/
theorem exists_overTree (hS : S.Executes (treeEnv S l cells)) (hi : index < 2 ^ (l + 1))
    (hp : index < p) :
    (∃ z : Var → ZMod p, OverTree S l numValVars .getBits cells z ∧ z (.ext .index) = index ∧
      RestZero h z) ∧
    ∀ v, Bits v → v.length = numValVars → ∃ z : Var → ZMod p,
      OverTree S l numValVars .putBits cells z ∧ z (.ext .index) = index ∧
        Holds z (genVars numValVars .value) v ∧ RestZero h z := by
  have ha : Answers S _ _ index _ := hT.answers hi (hT.bits (index % 2 ^ l))
  have hram : (treeEnv S l cells).ram (Env.address index) = cells (index % 2 ^ l) :=
    congrArg cells (hT.address_mod index)
  refine ⟨?_, fun v hv hvlen => ?_⟩
  · obtain ⟨s, hf⟩ := exists_filled_getBits hS ha hram
    have hz := hT.overTree (hT.bits _) hf hp
    rw [hT.length] at hz
    exact ⟨_, hz, by simp [hf.index_eq], fun i hi => by simp [hf.rest i hi]⟩
  · obtain ⟨s, hf⟩ := exists_filled_putBits hS ha hram (hT.answers hi hv)
      ((hT.length _).trans hvlen.symm)
    have hz := hT.overTree hv hf hp
    rw [hvlen] at hz
    exact ⟨_, hz, by simp [hf.index_eq], hvlen ▸ holds_cast hf.values_eq _,
      fun i hi => by simp [hf.rest i hi]⟩

end CollisionFree

end

/-! Two cells of one bit under the null hash. -/

theorem collisionFree_two {cells : ℕ → List ℤ} (hcells : ∀ k, cells k = [0] ∨ cells k = [1]) :
    CollisionFree nullSpec 1 1 cells := by
  have hlen : ∀ k, (cells k).length = 1 := fun k => by rcases hcells k with h | h <;> rw [h] <;> rfl
  refine ⟨by decide, fun k => ?_, hlen, ?_, ?_⟩
  · rcases hcells k with h | h <;> simp [h, Bits, IsBit]
  · rintro _ ⟨k, -, rfl⟩ _ ⟨k', -, rfl⟩ heq
    have hbits := List.append_inj_right' heq (by simp [hlen])
    have htake : ∀ k, (cells k).reverse.take (2 * hashFieldBits) = (cells k).reverse := fun k =>
      List.take_of_length_le (by rw [List.length_reverse, hlen]; decide)
    rw [htake, htake] at hbits
    exact List.reverse_injective hbits
  · rintro _ ⟨n, i, hn, hi, rfl⟩ _ ⟨n', i', hn', hi', rfl⟩ _
    obtain rfl : n = 0 := by omega
    obtain rfl : n' = 0 := by omega
    obtain rfl : i = 0 := by simpa using hi
    obtain rfl : i' = 0 := by simpa using hi'
    rfl

def twoCells (k : ℕ) : List ℤ := if k = 1 then [1] else [0]

theorem twoCells_bit (k : ℕ) : twoCells k = [0] ∨ twoCells k = [1] := by
  rw [twoCells]
  split
  · exact .inr rfl
  · exact .inl rfl

theorem fact_prime_five : Fact (Nat.Prime 5) := ⟨by norm_num⟩

attribute [local instance] fact_prime_five

theorem exists_overTree_two {index : ℕ} (hi : index < 4) :
    (∃ z : Var → ZMod 5, OverTree nullSpec 1 1 .getBits twoCells z ∧ z (.ext .index) = index) ∧
    ∃ z : Var → ZMod 5, OverTree nullSpec 1 1 .putBits twoCells z ∧ z (.ext .index) = index := by
  obtain ⟨⟨z, hz, hidx, -⟩, hput⟩ := (collisionFree_two twoCells_bit).exists_overTree 5
    (nullSpec_executes _) hi (by omega)
  obtain ⟨z', hz', hidx', -⟩ := hput [1] (by simp [Bits, IsBit]) rfl
  exact ⟨⟨z, hz, hidx⟩, z', hz', hidx'⟩

/-- Cell `1` is read, and cell `0` is written. -/
theorem path_sound_twoCells :
    (∃ z : Var → ZMod 5, OverTree nullSpec 1 1 .getBits twoCells z ∧
      ∃ k : ℕ, k < 2 ^ 1 ∧ z (.ext .index) = (k : ZMod 5) ∧
        Holds z (genVars 1 .value) (twoCells k)) ∧
    ∃ z : Var → ZMod 5, OverTree nullSpec 1 1 .putBits twoCells z ∧
      ∃ k : ℕ, k < 2 ^ 1 ∧ z (.ext .index) = (k : ZMod 5) ∧
        Holds z (genVars 2 .outHash) (pack 2 (treeHash nullSpec
          (Function.update twoCells k (bitsHeld z (genVars 1 .value))) 1 0)) := by
  obtain ⟨z, hz, hidx⟩ := (exists_overTree_two (by decide : 1 < 4)).1
  obtain ⟨z', hz', hidx'⟩ := (exists_overTree_two four_pos).2
  exact ⟨⟨z, hz, ((path_sound_iff_index_lt (nullSpec_computes 5) (by decide)).1 hz).2
      ⟨1, by decide, hidx⟩⟩,
    z', hz', ((path_sound_iff_index_lt (nullSpec_computes 5) (by decide)).2 hz').2
      ⟨0, by decide, hidx'⟩⟩

/-- The database has two cells, and a read and a write with the index `3` satisfy the
constraints. -/
theorem path_unsound_twoCells :
    (∃ z : Var → ZMod 5, OverTree nullSpec 1 1 .getBits twoCells z ∧
      ¬ ∃ k : ℕ, k < 2 ^ 1 ∧ z (.ext .index) = (k : ZMod 5) ∧
        Holds z (genVars 1 .value) (twoCells k)) ∧
    ∃ z : Var → ZMod 5, OverTree nullSpec 1 1 .putBits twoCells z ∧
      ¬ ∃ k : ℕ, k < 2 ^ 1 ∧ z (.ext .index) = (k : ZMod 5) ∧
        Holds z (genVars 2 .outHash) (pack 2 (treeHash nullSpec
          (Function.update twoCells k (bitsHeld z (genVars 1 .value))) 1 0)) := by
  obtain ⟨⟨z, hz, hidx⟩, z', hz', hidx'⟩ := exists_overTree_two (by decide : 3 < 4)
  have hne : ∀ k : ℕ, k < 2 ^ 1 → ((3 : ℕ) : ZMod 5) ≠ k := by decide
  refine ⟨⟨z, hz, ?_⟩, z', hz', ?_⟩
  · rintro ⟨k, hk, hk', -⟩
    exact hne k hk (hidx.symm.trans hk')
  · rintro ⟨k, hk, hk', -⟩
    exact hne k hk (hidx'.symm.trans hk')

end Pequin.Merkle
