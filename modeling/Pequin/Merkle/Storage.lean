import Pequin.Lib.HashCache
import Pequin.Merkle.Path

/-!
# The prover's database

The prover keeps the cells of the database and a cache with the hashes of the nodes of the tree over
them, numbered as in a heap. A write takes the hashes above the cell out of the cache, and the tree
is hashed again from the root, down to the nodes that are in the cache.

Addresses and numbers of nodes are `uint32_t`. The number of levels is counted with shifts of an
`int`.
-/

namespace Pequin.Merkle
open Generator TwosComplement HashTree

abbrev HashCache := ℕ → Option (List Bool)

/-- `1 << k` in an `int`. A shift by 32 or more is not defined. -/
def shlOne (k : ℕ) : Option ℤ :=
  if k < 31 then some (2 ^ k) else if k = 31 then some (-2 ^ 31) else none

theorem lt_of_shlOne {k : ℕ} {v : ℤ} (h : shlOne k = some v) : k < 32 := by
  unfold shlOne at h
  split at h
  · omega
  · split at h
    · omega
    · cases h

def countLevels (numAddresses numLevels : ℕ) : Option ℕ :=
  match _h : shlOne (numLevels - 1) with
  | none => none
  | some v =>
    if numAddresses > v then countLevels numAddresses (numLevels + 1) else some numLevels
termination_by 33 - numLevels
decreasing_by
  have := lt_of_shlOne _h
  omega

/-- The parameters `DB_NUM_ADDRESSES` and `RAM_CELL_NUM_BITS` and the hash function. -/
structure RamConfig where
  numAddresses : ℕ
  cellNumBits : ℕ
  hashFunc : HashFunc
  tables : Tables

namespace RamConfig
variable (c : RamConfig)

def hash (v : List Bool) : List Bool := c.hashFunc.hash c.tables v

def hashPair (left right : List Bool) : List Bool := c.hashFunc.hashPair c.tables left right

def createHash (hashBits : List Bool) : List ℤ :=
  Merkle.createHash (c.hashFunc.hasher c.tables).numElts hashBits

/-- The hash of subtrees outside the database. -/
def emptyHash : List Bool := c.hash [false]

def initialLevels : Option ℕ := if c.numAddresses > 0 then countLevels c.numAddresses 1 else some 0

end RamConfig

structure Ram where
  store : ℕ → Option (List Bool)
  numLevels : ℕ
  hashCache : HashCache
  rootHash : List ℤ

def getHCIndex (numLevels addr level : ℕ) (shift : Bool) : ℕ :=
  let addr := if shift then addr / 2 ^ (numLevels - level - 1) else addr
  (2 ^ level - 1 + addr) % 2 ^ 32

section
variable (c : RamConfig)

/-- The program stops at an address out of bounds. -/
def getCell (store : ℕ → Option (List Bool)) (addr : ℕ) : Option (List Bool) :=
  if addr > c.numAddresses then none
  else some ((store addr).getD (List.replicate c.cellNumBits false))

/-- The part of `updateSubtree` before and after the hash is computed. The node has `below` levels
below it. -/
def visitSubtree (numLevels below addr : ℕ) (cache : HashCache)
    (compute : Option (List Bool × HashCache)) : Option (List Bool × HashCache) :=
  if addr * 2 ^ below % 2 ^ 32 ≥ c.numAddresses then some (c.emptyHash, cache)
  else
    let index := getHCIndex numLevels addr (numLevels - below - 1) false
    match cache index with
    | some hash => some (hash, cache)
    | none => do
      let (hash, cache) ← compute
      some (hash, Function.update cache index (some hash))

/-- The node `addr` on level `numLevels - below - 1`. -/
def updateSubtree (store : ℕ → Option (List Bool)) (numLevels : ℕ) :
    ℕ → ℕ → HashCache → Option (List Bool × HashCache)
  | 0, addr, cache => visitSubtree c numLevels 0 addr cache do
    let v ← getCell c store addr
    some (c.hash v, cache)
  | below + 1, addr, cache => visitSubtree c numLevels (below + 1) addr cache do
    let (left, cache) ← updateSubtree store numLevels below (addr * 2 % 2 ^ 32) cache
    let (right, cache) ← updateSubtree store numLevels below (addr * 2 % 2 ^ 32 ||| 1) cache
    some (c.hashPair left right, cache)

def updateHashes (ram : Ram) : Option Ram := do
  let (hash, cache) ← updateSubtree c ram.store ram.numLevels (ram.numLevels - 1) 0 ram.hashCache
  some { ram with hashCache := cache, rootHash := c.createHash hash }

def newRam (store : ℕ → Option (List Bool)) : Option Ram := do
  let numLevels ← c.initialLevels
  updateHashes c ⟨store, numLevels, fun _ => none, []⟩

def invalidateHashes (numLevels : ℕ) (cache : HashCache) (addr : ℕ) : HashCache :=
  (List.range numLevels).foldl
    (fun cache i => Function.update cache (getHCIndex numLevels addr i true) none) cache

def Ram.put (ram : Ram) (addr : ℕ) (val : List Bool) : Option Ram :=
  updateHashes c { ram with
    store := Function.update ram.store addr (some val)
    hashCache := invalidateHashes ram.numLevels ram.hashCache addr }

/-- A new database and a sequence of writes. -/
def runPuts (store : ℕ → Option (List Bool)) (puts : List (ℕ × List Bool)) : Option Ram :=
  puts.foldlM (fun ram p => ram.put c p.1 p.2) =<< newRam c store

end

/-- The index of a node is held in an `int`: an odd one is a left child. -/
def Ram.getSiblingHash (ram : Ram) (addr level : ℕ) : Option (List Bool) :=
  let cacheIndex : ℤ := Int.bmod (getHCIndex ram.numLevels addr level true) (2 ^ 32)
  let cacheIndex := if cacheIndex % 2 = 1 then cacheIndex + 1 else cacheIndex - 1
  ram.hashCache (cacheIndex % 2 ^ 32).toNat

/-! ## The number of levels -/

theorem countLevels_two_pow {l : ℕ} (hl : l ≤ 30) {k : ℕ} (hk : k ≤ l) :
    countLevels (2 ^ l) (k + 1) = some (l + 1) := by
  induction hd : l - k generalizing k with
  | zero =>
    obtain rfl : k = l := by omega
    have hshl : shlOne (k + 1 - 1) = some (2 ^ k) := if_pos (by omega)
    rw [countLevels, hshl]
    simp
  | succ d ih =>
    have hshl : shlOne (k + 1 - 1) = some (2 ^ k) := if_pos (by omega)
    have hgt : ((2 ^ l : ℕ) : ℤ) > 2 ^ k := by
      exact_mod_cast Nat.pow_lt_pow_right one_lt_two (by omega)
    rw [countLevels, hshl]
    simp only [hgt, if_true]
    exact ih (by omega) (by omega)

/-- No shift of an `int` reaches `2^31`. -/
theorem countLevels_eq_none {numAddresses : ℕ} (h : 2 ^ 31 ≤ numAddresses) (numLevels : ℕ) :
    countLevels numAddresses numLevels = none := by
  induction hd : 33 - numLevels using Nat.strong_induction_on generalizing numLevels with
  | _ d ih =>
    rw [countLevels]
    split
    · rfl
    · rename_i v hv
      have hlt := lt_of_shlOne hv
      have hgt : (numAddresses : ℤ) > v := by
        have hbound : v < 2 ^ 31 := by
          unfold shlOne at hv
          split at hv
          · rename_i hk
            rw [← Option.some.inj hv]
            exact_mod_cast Nat.pow_lt_pow_right one_lt_two hk
          · split at hv
            · rw [← Option.some.inj hv]
              decide
            · cases hv
        have hle : (2 ^ 31 : ℤ) ≤ numAddresses := by exact_mod_cast h
        omega
      rw [if_pos hgt]
      exact ih _ (by omega) _ rfl

/-! ## Numbers of nodes -/

/-- The number of node `i` of height `h` in a tree of height `l`. -/
def heapIndex (l h i : ℕ) : ℕ := 2 ^ (l - h) - 1 + i

section
variable {l h i : ℕ}

theorem heapIndex_bounds (hi : i < 2 ^ (l - h)) :
    2 ^ (l - h) ≤ heapIndex l h i + 1 ∧ heapIndex l h i + 1 < 2 ^ (l - h + 1) := by
  have hpos := Nat.two_pow_pos (l - h)
  unfold heapIndex
  rw [pow_succ]
  omega

theorem heapIndex_lt (hl : l ≤ 30) (hi : i < 2 ^ (l - h)) : heapIndex l h i + 1 < 2 ^ 31 :=
  (heapIndex_bounds hi).2.trans_le (Nat.pow_le_pow_right two_pos (by omega))

theorem heapIndex_inj {h' i' : ℕ} (hh : h ≤ l) (hi : i < 2 ^ (l - h)) (hh' : h' ≤ l)
    (hi' : i' < 2 ^ (l - h')) (heq : heapIndex l h i = heapIndex l h' i') : h = h' ∧ i = i' := by
  obtain ⟨h1, h2⟩ := heapIndex_bounds hi
  obtain ⟨h1', h2'⟩ := heapIndex_bounds hi'
  rw [heq] at h1 h2
  have hle := Nat.lt_succ_iff.1 ((Nat.pow_lt_pow_iff_right one_lt_two).1 (h1.trans_lt h2'))
  have hge := Nat.lt_succ_iff.1 ((Nat.pow_lt_pow_iff_right one_lt_two).1 (h1'.trans_lt h2))
  obtain rfl : h = h' := by omega
  exact ⟨rfl, Nat.add_left_cancel heq⟩

theorem getHCIndex_node (hl : l ≤ 30) (hh : h ≤ l) (hi : i < 2 ^ (l - h)) :
    getHCIndex (l + 1) i (l + 1 - h - 1) false = heapIndex l h i := by
  have hlt := heapIndex_lt hl hi
  have hlevel : l + 1 - h - 1 = l - h := by omega
  unfold getHCIndex
  rw [hlevel]
  exact Nat.mod_eq_of_lt (Nat.lt_of_succ_lt (hlt.trans (by decide)))

/-- The sibling of a left child comes after it, that of a right child before it. -/
theorem siblingIndex_eq (hh : h < l) (i : ℕ) :
    (if (heapIndex l h i : ℤ) % 2 = 1 then (heapIndex l h i : ℤ) + 1
      else (heapIndex l h i : ℤ) - 1) = heapIndex l h (sibling i) := by
  have hpos := Nat.two_pow_pos (l - h)
  have heven : 2 ^ (l - h) % 2 = 0 := by
    rw [show l - h = l - h - 1 + 1 by omega, pow_succ, Nat.mul_mod_left]
  unfold heapIndex sibling
  generalize 2 ^ (l - h) = width at hpos heven
  by_cases hi : i % 2 = 0
  · rw [if_pos (by omega), if_pos hi]
    omega
  · rw [if_neg (by omega), if_neg hi]
    omega

theorem div_two_pow_lt {k : ℕ} (hk : k < 2 ^ l) (hh : h ≤ l) : k / 2 ^ h < 2 ^ (l - h) := by
  rw [Nat.div_lt_iff_lt_mul (Nat.two_pow_pos _), ← pow_add, Nat.sub_add_cancel hh]
  exact hk

/-- The node above an address. -/
theorem getHCIndex_path (hl : l ≤ 30) {addr : ℕ} (haddr : addr < 2 ^ l) (hh : h ≤ l) :
    getHCIndex (l + 1) addr (l - h) true = heapIndex l h (addr / 2 ^ h) := by
  have hlt := heapIndex_lt hl (div_two_pow_lt haddr hh)
  have hshift : l + 1 - (l - h) - 1 = h := by omega
  unfold getHCIndex
  rw [hshift]
  exact Nat.mod_eq_of_lt (Nat.lt_of_succ_lt (hlt.trans (by decide)))

end

/-- The cache by height and number of the node. -/
def nodeCache (l : ℕ) (cache : HashCache) : Cache (List Bool) := fun h i =>
  if h ≤ l ∧ i < 2 ^ (l - h) then cache (heapIndex l h i) else none

section
variable {l h i : ℕ} (hh : h ≤ l) (hi : i < 2 ^ (l - h)) (cache : HashCache)
include hh hi

theorem nodeCache_node : nodeCache l cache h i = cache (heapIndex l h i) := if_pos ⟨hh, hi⟩

theorem nodeCache_update (x : Option (List Bool)) :
    nodeCache l (Function.update cache (heapIndex l h i) x) = (nodeCache l cache).set h i x := by
  funext h' i'
  unfold Cache.set
  split
  · rename_i heq
    rw [heq.1, heq.2, nodeCache_node hh hi, Function.update_self]
  · rename_i heq
    unfold nodeCache
    split
    · rename_i hv
      have hne : heapIndex l h' i' ≠ heapIndex l h i :=
        fun hidx => heq (heapIndex_inj hv.1 hv.2 hh hi hidx)
      rw [Function.update_of_ne hne]
    · rfl

end

/-! ## Hashing the tree -/

section
variable (c : RamConfig)

/-- The cells of the database. One that was never written has zeros. -/
def RamConfig.cells (store : ℕ → Option (List Bool)) (addr : ℕ) : List Bool :=
  (store addr).getD (List.replicate c.cellNumBits false)

/-- The hash of a node over the cells. -/
def RamConfig.nodeHash (store : ℕ → Option (List Bool)) (h i : ℕ) : List Bool :=
  subtree c.hash c.hashPair (c.cells store) h i

def RamConfig.GoodCache (l : ℕ) (store : ℕ → Option (List Bool)) (cache : HashCache) : Prop :=
  (nodeCache l cache).Good c.hash c.hashPair (c.cells store)

variable {c} {l : ℕ} (hl : l ≤ 30) (hsize : c.numAddresses = 2 ^ l) {store : ℕ → Option (List Bool)}

theorem getCell_eq (hsize : c.numAddresses = 2 ^ l) {addr : ℕ} (haddr : addr < 2 ^ l) :
    getCell c store addr = some (c.cells store addr) := if_neg (by omega)

/-- After a node is updated, its hash is returned and the cache has it. -/
structure Updated (c : RamConfig) (l : ℕ) (store : ℕ → Option (List Bool)) (h i : ℕ)
    (cache : HashCache) (r : List Bool × HashCache) : Prop where
  hash_eq : r.1 = c.nodeHash store h i
  good : c.GoodCache l store r.2
  ext : (nodeCache l r.2).Extends (nodeCache l cache)
  isSome : (nodeCache l r.2 h i).isSome

/-- A node that was computed. -/
theorem updated_put {h i : ℕ} (hh : h ≤ l) (hi : i < 2 ^ (l - h)) {cache cache' : HashCache}
    (hgood : c.GoodCache l store cache') (hext : (nodeCache l cache').Extends (nodeCache l cache))
    (hchildren : ∀ h', h = h' + 1 → (nodeCache l cache' h' (2 * i)).isSome ∧
      (nodeCache l cache' h' (2 * i + 1)).isSome) :
    Updated c l store h i cache (c.nodeHash store h i,
      Function.update cache' (heapIndex l h i) (some (c.nodeHash store h i))) := by
  have hset := nodeCache_update hh hi cache' (some (c.nodeHash store h i))
  refine ⟨rfl, ?_, ?_, ?_⟩
  · unfold RamConfig.GoodCache
    rw [hset]
    exact hgood.set_some hchildren
  · intro h' i' hsome
    rw [hset]
    exact Cache.extends_set _ _ _ _ _ _ (hext _ _ hsome)
  · rw [hset, Cache.set_self]
    rfl

include hl hsize

/-- A node of the tree is taken from the cache, or it is computed and put in. -/
theorem visitSubtree_eq {h i : ℕ} (hh : h ≤ l) (hi : i < 2 ^ (l - h)) (cache : HashCache)
    (compute : Option (List Bool × HashCache)) : visitSubtree c (l + 1) h i cache compute =
      match nodeCache l cache h i with
      | some hash => some (hash, cache)
      | none => compute.map fun r => (r.1, Function.update r.2 (heapIndex l h i) (some r.1)) := by
  have hmul : i * 2 ^ h < 2 ^ l := by
    have h1 := Nat.mul_lt_mul_of_pos_right hi (Nat.two_pow_pos h)
    rwa [← pow_add, Nat.sub_add_cancel hh] at h1
  have hpow : 2 ^ l ≤ 2 ^ 30 := Nat.pow_le_pow_right two_pos hl
  have hin : ¬ i * 2 ^ h % 2 ^ 32 ≥ c.numAddresses := by
    rw [Nat.mod_eq_of_lt (by omega), hsize]
    omega
  rw [visitSubtree, if_neg hin, nodeCache_node hh hi]
  simp only [getHCIndex_node hl hh hi]
  cases cache (heapIndex l h i) with
  | some hash => rfl
  | none => cases compute <;> rfl

theorem updateSubtree_updated {h i : ℕ} (hh : h ≤ l) (hi : i < 2 ^ (l - h)) {cache : HashCache}
    (hgood : c.GoodCache l store cache) :
    ∃ r, updateSubtree c store (l + 1) h i cache = some r ∧ Updated c l store h i cache r := by
  induction h generalizing i cache with
  | zero =>
    rw [updateSubtree, visitSubtree_eq hl hsize hh hi]
    cases hcache : nodeCache l cache 0 i with
    | some hash =>
      exact ⟨_, rfl, hgood.right hcache, hgood, fun _ _ hsome => hsome, by rw [hcache]; rfl⟩
    | none =>
      rw [getCell_eq hsize (by simpa using hi)]
      exact ⟨_, rfl, updated_put hh hi hgood (fun _ _ hsome => hsome) nofun⟩
  | succ h ih =>
    rw [updateSubtree, visitSubtree_eq hl hsize hh hi]
    cases hcache : nodeCache l cache (h + 1) i with
    | some hash =>
      exact ⟨_, rfl, hgood.right hcache, hgood, fun _ _ hsome => hsome, by rw [hcache]; rfl⟩
    | none =>
      have hpow : 2 ^ (l - h) = 2 * 2 ^ (l - (h + 1)) := by
        rw [← pow_succ']
        congr 1
        omega
      have hbound : 2 ^ (l - h) ≤ 2 ^ 30 := Nat.pow_le_pow_right two_pos (by omega)
      have hleft : i * 2 % 2 ^ 32 = 2 * i := by
        rw [Nat.mod_eq_of_lt (by omega), Nat.mul_comm]
      have hright : 2 * i ||| 1 = 2 * i + 1 := by
        have hor := Nat.two_pow_add_eq_or_of_lt (i := 1) (b := 1) (by decide) i
        rwa [pow_one, eq_comm] at hor
      obtain ⟨r₁, heq₁, hup₁⟩ := ih (i := 2 * i) (by omega) (by omega) hgood
      obtain ⟨r₂, heq₂, hup₂⟩ := ih (i := 2 * i + 1) (by omega) (by omega) hup₁.good
      have hnode : c.hashPair r₁.1 r₂.1 = c.nodeHash store (h + 1) i := by
        rw [hup₁.hash_eq, hup₂.hash_eq]
        rfl
      rw [hleft, hright, heq₁]
      simp only [Option.bind_eq_bind, Option.bind_some, heq₂, hnode, Option.map_some]
      refine ⟨_, rfl, updated_put hh hi hup₂.good
        (fun _ _ hsome => hup₂.ext _ _ (hup₁.ext _ _ hsome)) ?_⟩
      rintro h' heq
      obtain rfl : h = h' := Nat.succ.inj heq
      exact ⟨hup₂.ext _ _ hup₁.isSome, hup₂.isSome⟩

/-! ## Runs -/

/-- Between operations the cache has every node, and the root is the root of the tree. -/
structure Ram.Valid (c : RamConfig) (l : ℕ) (ram : Ram) : Prop where
  numLevels_eq : ram.numLevels = l + 1
  good : c.GoodCache l ram.store ram.hashCache
  root_mem : (nodeCache l ram.hashCache l 0).isSome
  rootHash_eq : ram.rootHash = c.createHash (c.nodeHash ram.store l 0)

theorem updateHashes_valid {ram : Ram} (hlevels : ram.numLevels = l + 1)
    (hgood : c.GoodCache l ram.store ram.hashCache) :
    ∃ ram', updateHashes c ram = some ram' ∧ ram'.Valid c l ∧ ram'.store = ram.store := by
  obtain ⟨⟨hash, cache⟩, heq, hup⟩ :=
    updateSubtree_updated hl hsize le_rfl (Nat.two_pow_pos (l - l)) hgood
  unfold updateHashes
  rw [hlevels, Nat.add_sub_cancel, heq]
  exact ⟨_, rfl, ⟨rfl, hup.good, hup.isSome, congrArg c.createHash hup.hash_eq⟩, rfl⟩

theorem newRam_valid (store : ℕ → Option (List Bool)) :
    ∃ ram, newRam c store = some ram ∧ ram.Valid c l ∧ ram.store = store := by
  have hlevels : c.initialLevels = some (l + 1) := by
    rw [RamConfig.initialLevels, hsize, if_pos (Nat.two_pow_pos l)]
    exact countLevels_two_pow hl (Nat.zero_le l)
  have hempty : c.GoodCache l store fun _ => none := by
    have hnone : nodeCache l (fun _ => none) = fun _ _ => none := by
      funext h i
      exact ite_self none
    unfold RamConfig.GoodCache
    rw [hnone]
    exact Cache.good_empty
  unfold newRam
  rw [hlevels]
  exact updateHashes_valid hl hsize rfl hempty

omit hsize in
/-- The nodes above an address are taken out of the cache, the others stay. -/
theorem nodeCache_invalidateHashes {addr : ℕ} (haddr : addr < 2 ^ l) (cache : HashCache) (h i : ℕ) :
    nodeCache l (invalidateHashes (l + 1) cache addr) h i =
      if addr / 2 ^ h = i then none else nodeCache l cache h i := by
  suffices hloop : ∀ m ≤ l + 1, nodeCache l ((List.range m).foldl (fun cache k =>
      Function.update cache (getHCIndex (l + 1) addr k true) none) cache) h i =
        if l - h < m ∧ addr / 2 ^ h = i then none else nodeCache l cache h i by
    rw [invalidateHashes, hloop _ le_rfl]
    simp only [show l - h < l + 1 by omega, true_and]
  intro m hm
  induction m with
  | zero => simp
  | succ m ih =>
    have hindex := getHCIndex_path hl haddr (Nat.sub_le l m)
    rw [Nat.sub_sub_self (by omega)] at hindex
    rw [List.range_succ, List.foldl_append, List.foldl_cons, List.foldl_nil, hindex,
      nodeCache_update (Nat.sub_le l m) (div_two_pow_lt haddr (Nat.sub_le l m)), Cache.set,
      ih (by omega)]
    by_cases hhl : h ≤ l
    · have hiff : h = l - m ↔ l - h = m := by omega
      by_cases hnode : h = l - m ∧ i = addr / 2 ^ (l - m)
      · rw [if_pos hnode, if_pos ⟨by omega, by rw [hnode.2, hnode.1]⟩]
      · rw [if_neg hnode]
        refine if_congr (and_congr_left fun hpath => ?_) rfl rfl
        have hne : l - h ≠ m := fun h' => hnode ⟨hiff.2 h', by rw [← hpath, ← hiff.2 h']⟩
        omega
    · have hnone : nodeCache l cache h i = none := if_neg fun hv => hhl hv.1
      simp [hnone]

omit hl hsize in
theorem cells_update (addr : ℕ) (val : List Bool) :
    c.cells (Function.update store addr (some val)) = Function.update (c.cells store) addr val := by
  funext k
  unfold RamConfig.cells
  by_cases hk : k = addr
  · rw [hk, Function.update_self, Function.update_self, Option.getD_some]
  · rw [Function.update_of_ne hk, Function.update_of_ne hk]

/-- One write keeps the database valid. -/
theorem put_valid {ram : Ram} (hram : ram.Valid c l) {addr : ℕ} (haddr : addr < 2 ^ l)
    (val : List Bool) : ∃ ram', ram.put c addr val = some ram' ∧ ram'.Valid c l ∧
      ram'.store = Function.update ram.store addr (some val) := by
  refine updateHashes_valid hl hsize hram.numLevels_eq ?_
  unfold RamConfig.GoodCache
  rw [cells_update, hram.numLevels_eq]
  refine hram.good.of_update val (k := addr) (fun h i hpath => ?_) fun h i hpath => ?_
  · rw [nodeCache_invalidateHashes hl haddr, if_pos hpath]
  · rw [nodeCache_invalidateHashes hl haddr, if_neg hpath]

def storeAfter (store : ℕ → Option (List Bool)) (puts : List (ℕ × List Bool)) :
    ℕ → Option (List Bool) := puts.foldl (fun st p => Function.update st p.1 (some p.2)) store

theorem runPuts_valid (store : ℕ → Option (List Bool)) {puts : List (ℕ × List Bool)}
    (hputs : ∀ p ∈ puts, p.1 < 2 ^ l) : ∃ ram, runPuts c store puts = some ram ∧ ram.Valid c l ∧
      ram.store = storeAfter store puts := by
  have hloop : ∀ ram : Ram, ram.Valid c l → ∃ ram',
      puts.foldlM (fun ram p => ram.put c p.1 p.2) ram = some ram' ∧ ram'.Valid c l ∧
        ram'.store = storeAfter ram.store puts := by
    induction puts with
    | nil => exact fun ram hram => ⟨ram, rfl, hram, rfl⟩
    | cons p puts ih =>
      intro ram hram
      obtain ⟨hp, hputs⟩ := List.forall_mem_cons.1 hputs
      obtain ⟨ram₁, hput, hvalid, hstore⟩ := put_valid hl hsize hram hp p.2
      obtain ⟨ram₂, hrun, hvalid₂, hstore₂⟩ := ih hputs ram₁ hvalid
      refine ⟨ram₂, ?_, hvalid₂, by rw [hstore₂, hstore]; rfl⟩
      rw [List.foldlM_cons, hput]
      exact hrun
  obtain ⟨ram, hnew, hvalid, rfl⟩ := newRam_valid hl hsize store
  obtain ⟨ram', hrun, hvalid', hstore⟩ := hloop ram hvalid
  refine ⟨ram', ?_, hvalid', hstore⟩
  unfold runPuts
  rw [hnew]
  exact hrun

omit hl hsize in
theorem Ram.Valid.cache_eq {ram : Ram} (hram : ram.Valid c l) {h i : ℕ} (hh : h ≤ l)
    (hi : i < 2 ^ (l - h)) :
    ram.hashCache (heapIndex l h i) = some (c.nodeHash ram.store h i) := by
  have hroot : (nodeCache l ram.hashCache (h + (l - h)) (i / 2 ^ (l - h))).isSome := by
    rw [Nat.add_sub_cancel' hh, Nat.div_eq_of_lt hi]
    exact hram.root_mem
  have hsome := hram.good.eq_some (hram.good.isSome_below (l - h) hroot)
  rwa [nodeCache_node hh hi] at hsome

omit hsize in
/-- The hash of the sibling is in the cache. -/
theorem getSiblingHash_eq {ram : Ram} (hram : ram.Valid c l) {addr h : ℕ} (haddr : addr < 2 ^ l)
    (hh : h < l) : ram.getSiblingHash addr (l - h) =
      some (c.nodeHash ram.store h (sibling (addr / 2 ^ h))) := by
  have hi := div_two_pow_lt haddr hh.le
  set i := addr / 2 ^ h with hidef
  have hsib : sibling i < 2 ^ (l - h) := by
    obtain ⟨d, hd⟩ : ∃ d, l - h = d + 1 := ⟨l - h - 1, by omega⟩
    rw [hd] at hi ⊢
    exact sibling_lt hi
  have hlt := heapIndex_lt hl hi
  have hbmod : Int.bmod (heapIndex l h i) (2 ^ 32) = heapIndex l h i :=
    Int.bmod_eq_of_le (by push_cast; omega) (by push_cast; omega)
  have hindex := siblingIndex_eq hh i
  have hltsib := heapIndex_lt hl hsib
  have hnat : ((heapIndex l h (sibling i) : ℤ) % 2 ^ 32).toNat = heapIndex l h (sibling i) := by
    rw [Int.emod_eq_of_lt (by omega) (by omega), Int.toNat_natCast]
  unfold Ram.getSiblingHash
  rw [hram.numLevels_eq, getHCIndex_path hl haddr hh.le, ← hidef, hbmod]
  simp only [hindex, hnat]
  exact hram.cache_eq hh.le hsib

end

/-! ## Paths through the circuit -/

section
variable {T : Tables} (f : HashFunc)

theorem Tables.length_hashLoop (T : Tables) (input : List Bool) (firstBlock : Bool)
    (blockBits resultBits : List Bool) (inputCopied : ℕ) :
    (T.hashLoop input firstBlock blockBits resultBits inputCopied).length = outputBits := by
  induction firstBlock, blockBits, resultBits, inputCopied using Tables.hashLoop.induct T input with
  | case1 firstBlock blockBits resultBits inputCopied blockCopied numInputBits hlast =>
    conv_lhs => unfold Tables.hashLoop
    exact (congrArg List.length (dif_pos hlast)).trans (T.length_hashBlock _)
  | case2 firstBlock blockBits resultBits inputCopied _ _ blockCopied numInputBits _ hfull ih =>
    conv_lhs => unfold Tables.hashLoop
    exact (congrArg List.length (dif_neg hfull)).trans ih

theorem HashFunc.length_hash (v : List Bool) : (f.hash T v).length = (f.hasher T).numHashBits := by
  cases f with
  | null => simp [HashFunc.hash, HashFunc.hasher, Hasher.numHashBits, nullHash]
  | ggh =>
    rw [numHashBits_ggh]
    exact T.length_hashLoop _ _ _ _ _

theorem HashFunc.length_hashPair {left right : List Bool}
    (hleft : left.length = (f.hasher T).numHashBits)
    (hright : right.length = (f.hasher T).numHashBits) :
    (f.hashPair T left right).length = (f.hasher T).numHashBits := by
  cases f with
  | null => rw [HashFunc.hashPair, List.length_zipWith, hleft, hright, Nat.min_self]
  | ggh => exact HashFunc.length_hash .ggh (left ++ right)

/-- The bits of a stored hash, as they stand in a circuit. -/
def circuitBits (hashBits : List Bool) : List ℤ := (Tables.ints hashBits).reverse

theorem bits_circuitBits (hashBits : List Bool) : Bits (circuitBits hashBits) :=
  (Tables.bits_ints hashBits).reverse

theorem length_circuitBits (hashBits : List Bool) :
    (circuitBits hashBits).length = hashBits.length := by
  rw [circuitBits, List.length_reverse, Tables.length_ints]

/-- A way up in the circuit is one in the storage. -/
theorem climb_circuitBits (hT : T.Valid) (index : ℕ) {x : List Bool}
    (hx : x.length = (f.hasher T).numHashBits) {ss : List (List Bool)}
    (hss : ∀ s ∈ ss, s.length = (f.hasher T).numHashBits) :
    climb (f.spec T).node index (circuitBits x) (ss.map circuitBits) =
      circuitBits (climb (f.hashPair T) index x ss) :=
  climb_map (P := fun x : List Bool => x.length = (f.hasher T).numHashBits)
    (fun _ _ => f.length_hashPair) (fun _ _ hl hr => f.node_ints hT hl hr) index hx hss

theorem length_nodeHash (c : RamConfig) (store : ℕ → Option (List Bool)) (h i : ℕ) :
    (c.nodeHash store h i).length = (c.hashFunc.hasher c.tables).numHashBits := by
  unfold RamConfig.nodeHash
  induction h generalizing i with
  | zero => exact c.hashFunc.length_hash _
  | succ h ih => exact c.hashFunc.length_hashPair (ih _) (ih _)

end

/-- The variables at the start of `genPath`: the hash of a cell, the bits of its index from the high
end, and the hashes of the siblings from the top. -/
structure PathInput (c : RamConfig) (l : ℕ) (ram : Ram) (addr : ℕ) (leafHash pathBits : List Var)
    (sib : List (List Var)) (n : ℕ) (s : Var → ℤ) : Prop where
  below_leaf : ∀ w ∈ leafHash, w.Below n
  below_path : ∀ w ∈ pathBits, w.Below n
  below_sib : ∀ b ∈ sib, ∀ w ∈ b, w.Below n
  leaf_eq : leafHash.map s = circuitBits (c.hash (c.cells ram.store addr))
  path_eq : pathBits.map s = (bitsOf (l + 1) addr).reverse
  sib_eq : sib.map (fun b => some (b.map s)) =
    (List.range l).map fun i => (ram.getSiblingHash addr (i + 1)).map circuitBits

section
variable {c : RamConfig} {l : ℕ} (hl : l ≤ 30)
include hl

/-- The siblings on the way up are those that the database answers with, from the last one. -/
theorem sib_eq_siblings {ram : Ram} (hram : ram.Valid c l) {addr : ℕ} (haddr : addr < 2 ^ l)
    {s : Var → ℤ} {sib : List (List Var)} (hsib : sib.map (fun b => some (b.map s)) =
      (List.range l).map fun i => (ram.getSiblingHash addr (i + 1)).map circuitBits) :
    (sib.map fun b => b.map s).reverse =
      (siblings c.hash c.hashPair (c.cells ram.store) l 0 addr).map circuitBits := by
  have hmap : (sib.map fun b => b.map s) = (List.range l).map fun i =>
      circuitBits (c.nodeHash ram.store (l - (i + 1)) (sibling (addr / 2 ^ (l - (i + 1))))) := by
    refine List.map_injective_iff.2 (Option.some_injective (List ℤ)) ?_
    rw [List.map_map, List.map_map]
    refine hsib.trans (List.map_congr_left fun i hi => ?_)
    have hlt := List.mem_range.1 hi
    have hget := getSiblingHash_eq hl hram haddr (show l - (i + 1) < l by omega)
    rw [Nat.sub_sub_self hlt] at hget
    rw [hget]
    rfl
  rw [hmap, siblings_eq_map, List.map_map]
  refine List.ext_getElem (by simp) fun j h1 h2 => ?_
  have hj : j < l := by simpa using h2
  have hback : l - (l - 1 - j + 1) = j := by omega
  simp [hback, RamConfig.nodeHash]

/-- The path of the circuit ends at the root of the database. -/
theorem runs_genPath_root (hT : c.tables.Valid) {ram : Ram} (hram : ram.Valid c l) {addr : ℕ}
    (haddr : addr < 2 ^ l) {env : Env} (henv : env.aMat = c.tables.row) {n : ℕ} {s : Var → ℤ}
    (hs : Base s) (hn : 2 ≤ n) {leafHash pathBits : List Var} {sib : List (List Var)}
    (hin : PathInput c l ram addr leafHash pathBits sib n s) :
    Runs (machine env) (genPath (c.hashFunc.hasher c.tables) leafHash pathBits sib) n s
      fun r _ s' => r.map s' = ram.rootHash := by
  have hsib := sib_eq_siblings hl hram haddr hin.sib_eq
  have hlen : sib.length = l := by simpa using congrArg List.length hin.sib_eq
  have hleaf : (c.hash (c.cells ram.store addr)).length =
      (c.hashFunc.hasher c.tables).numHashBits := c.hashFunc.length_hash _
  have hlens : ∀ x ∈ siblings c.hash c.hashPair (c.cells ram.store) l 0 addr,
      x.length = (c.hashFunc.hasher c.tables).numHashBits := by
    intro x hx
    rw [siblings_eq_map] at hx
    obtain ⟨j, -, rfl⟩ := List.mem_map.1 hx
    exact length_nodeHash c _ _ _
  have hpath : PathHolds s addr (pathSteps pathBits sib)
      ((siblings c.hash c.hashPair (c.cells ram.store) l 0 addr).map circuitBits) := by
    have hforall : List.Forall₂ (Holds s) sib (sib.map fun b => b.map s) :=
      List.forall₂_map_right_iff.2 (List.forall₂_same.2 fun b _ => holds_int s b)
    have h := pathHolds_pathSteps (bits_bitsOf (l + 1) (addr : ℤ)).reverse
      (holds_int_iff.2 hin.path_eq) hforall (by rw [hlen, List.length_reverse, length_bitsOf]; rfl)
    have hlt : (addr : ℤ) < 2 ^ (l + 1) := by
      exact_mod_cast haddr.trans (Nat.pow_lt_pow_right one_lt_two l.lt_succ_self)
    rwa [List.reverse_reverse, unsigned_bitsOf_of_lt (by omega) hlt, Int.toNat_natCast, hsib] at h
  have hbits : ∀ v ∈ (siblings c.hash c.hashPair (c.cells ram.store) l 0 addr).map circuitBits,
      Bits v := by
    intro v hv
    obtain ⟨x, -, rfl⟩ := List.mem_map.1 hv
    exact bits_circuitBits x
  have hbelow : StepsBelow n (pathSteps pathBits sib) := by
    intro st hst
    obtain ⟨h1, h2⟩ := List.of_mem_zip (List.mem_reverse.1 hst)
    exact ⟨hin.below_path _ (List.mem_of_mem_drop h1), hin.below_sib _ h2⟩
  refine (runs_genPathSteps (c.hashFunc.spec_executes hT henv) hs hn hpath hbelow ?_
    hin.below_leaf hin.leaf_eq ?_ ?_).mono fun r _ s' _ _ hpost => ?_
  · intro v hv
    obtain ⟨x, hx, rfl⟩ := List.mem_map.1 hv
    rw [length_circuitBits, hlens x hx]
  · rw [length_circuitBits]
    exact hleaf
  · exact nodeRange_climbPairs _ (bits_circuitBits _) hbits addr
  · have hclimb : climb c.hashPair addr (c.hash (c.cells ram.store addr))
        (siblings c.hash c.hashPair (c.cells ram.store) l 0 addr) =
          subtree c.hash c.hashPair (c.cells ram.store) (0 + l) (addr / 2 ^ l) :=
      climb_siblings (c.cells ram.store) l 0 addr
    rw [Nat.zero_add, Nat.div_eq_of_lt haddr] at hclimb
    have hcirc : climb (c.hashFunc.spec c.tables).node addr
        (circuitBits (c.hash (c.cells ram.store addr)))
        ((siblings c.hash c.hashPair (c.cells ram.store) l 0 addr).map circuitBits) =
          circuitBits (climb c.hashPair addr (c.hash (c.cells ram.store addr))
            (siblings c.hash c.hashPair (c.cells ram.store) l 0 addr)) :=
      climb_circuitBits c.hashFunc hT addr hleaf hlens
    rw [hpost.2, hcirc, hram.rootHash_eq, RamConfig.nodeHash, ← hclimb]
    refine pack_reverse_ints ?_
    have hroot := length_nodeHash c ram.store l 0
    rw [RamConfig.nodeHash, ← hclimb] at hroot
    exact hroot

end

/-- For a database of `2^l` cells, `l ≤ 30`: after every sequence of writes the root is that of the
tree over the cells, the database has the hash of every sibling, and the path that the circuit
computes from the hash of a cell and these hashes ends at the root. -/
theorem database_consistent {c : RamConfig} (hT : c.tables.Valid) {l : ℕ} (hl : l ≤ 30)
    (hsize : c.numAddresses = 2 ^ l) (store : ℕ → Option (List Bool)) {puts : List (ℕ × List Bool)}
    (hputs : ∀ p ∈ puts, p.1 < 2 ^ l) :
    ∃ ram, runPuts c store puts = some ram ∧ ram.store = storeAfter store puts ∧
      ram.rootHash = c.createHash (subtree c.hash c.hashPair (c.cells ram.store) l 0) ∧
      ∀ addr < 2 ^ l,
        (∀ level, 1 ≤ level → level ≤ l → ram.getSiblingHash addr level =
          some (subtree c.hash c.hashPair (c.cells ram.store) (l - level)
            (sibling (addr / 2 ^ (l - level))))) ∧
        ∀ (env : Env) (n : ℕ) (s : Var → ℤ) (leafHash pathBits : List Var) (sib : List (List Var)),
          env.aMat = c.tables.row → Base s → 2 ≤ n →
          PathInput c l ram addr leafHash pathBits sib n s →
          Runs (machine env) (genPath (c.hashFunc.hasher c.tables) leafHash pathBits sib) n s
            fun r _ s' => r.map s' = ram.rootHash := by
  obtain ⟨ram, hrun, hvalid, hstore⟩ := runPuts_valid hl hsize store hputs
  refine ⟨ram, hrun, hstore, hvalid.rootHash_eq, fun addr haddr => ⟨fun level h1 h2 => ?_, ?_⟩⟩
  · have hget := getSiblingHash_eq hl hvalid haddr (show l - level < l by omega)
    rwa [Nat.sub_sub_self h2] at hget
  · intro env n s leafHash pathBits sib henv hs hn hin
    exact runs_genPath_root hl hT hvalid haddr henv hs hn hin

/-- Two cells, one of which is written. -/
theorem database_consistent_twoCells : ∃ ram, runPuts ⟨2 ^ 1, 1, .null, ⟨fun _ _ => 0, fun _ => 0⟩⟩
    (fun _ => none) [(0, [true])] = some ram ∧ (ram.getSiblingHash 1 1).isSome := by
  have hvalid : (Tables.mk (fun _ _ => 0) fun _ => 0).Valid := fun _ _ => Nat.two_pow_pos _
  have hputs : ∀ p ∈ [(0, [true])], p.1 < 2 ^ 1 := by decide
  obtain ⟨ram, hrun, -, -, hpath⟩ := database_consistent
    (c := ⟨2 ^ 1, 1, .null, ⟨fun _ _ => 0, fun _ => 0⟩⟩) hvalid (by decide) rfl
      (fun _ => none) hputs
  refine ⟨ram, hrun, ?_⟩
  rw [(hpath 1 (by decide)).1 1 le_rfl le_rfl]
  rfl

/-- A database of `2^31` cells cannot be set up. -/
theorem newRam_eq_none_two_pow_31 :
    newRam ⟨2 ^ 31, 1, .ggh, ⟨fun _ _ => 0, fun _ => 0⟩⟩ (fun _ => none) = none := by
  have hlevels : RamConfig.initialLevels ⟨2 ^ 31, 1, .ggh, ⟨fun _ _ => 0, fun _ => 0⟩⟩ = none :=
    (if_pos (Nat.two_pow_pos 31)).trans (countLevels_eq_none le_rfl 1)
  unfold newRam
  rw [hlevels]
  rfl

end Pequin.Merkle
