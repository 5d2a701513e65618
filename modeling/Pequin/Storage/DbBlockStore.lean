import Pequin.Avl.Code
import Pequin.Storage.Bits

/-!
# The compressed block store

Rows and tree nodes are kept in files and found by position. A node is stored with the positions of
its rows and children instead of their hashes. Two caches have the positions of the hashes that were
seen, and all other blocks are in a database.

A node is rebuilt from the rows and from a file of hashes. Its unused values are not stored. So a
node is got as it was put if all of its values are used.
-/

namespace Pequin.DbStore

open AvlTree Storage

/-- The blocks, told apart by their sizes. -/
inductive Block (K R H : Type)
  | row (content : R)
  | node (content : TreeNode K H H)
  | other (bits : Bits)

/-- The hash of blocks: no two blocks have the same one, and none has the null hash. -/
structure BlockHash (K R H : Type) where
  hash : Block K R H → H
  null : H
  injective : Function.Injective hash
  ne_null : ∀ b, hash b ≠ null

structure State (K R H : Type) where
  rowFile : List R
  indexFile : List (CompressedTreeNode K)
  hashIndexFile : List H
  rowHashCache : H → Option ℕ
  indexHashCache : H → Option ℕ
  store : H → Option (List UInt8)

variable {K R H : Type} [DecidableEq H]

/-- `insert` of a `std::map`, which keeps an entry that exists. -/
def insert (cache : H → Option ℕ) (h : H) (offset : ℕ) : H → Option ℕ :=
  if (cache h).isSome then cache else Function.update cache h (some offset)

variable (N : BlockHash K R H)

def childOffset (s : State K R H) (h : H) : Option ℕ :=
  if h = N.null then some 0 else s.indexHashCache h

/-- `junk` is in the values that are not set. -/
def compressTreeNode (s : State K R H) (f : TreeNode K H H) (junk : Vector ℕ maxTreeNodeValues) :
    Option (CompressedTreeNode K) := do
  let values ← (List.range f.numValues).foldlM (fun values i => do
    let h ← f.values[i]?
    let offset ← s.rowHashCache h
    some (values.setIfInBounds i offset)) junk
  let left ← childOffset N s f.left
  let right ← childOffset N s f.right
  some { left, right, key := f.key, numValues := f.numValues, values
         height := f.height, heightLeft := f.heightLeft, heightRight := f.heightRight }

/-- The loop of `decompressTreeNode`: the values and the cache of rows. -/
def decompressValues (s : State K R H) (c : CompressedTreeNode K)
    (junk : Vector H maxTreeNodeValues)
    (n : ℕ) : Option (Vector H maxTreeNodeValues × (H → Option ℕ)) :=
  (List.range n).foldlM (fun (values, cache) i => do
    let offset ← c.values[i]?
    let row ← s.rowFile[offset]?
    some (values.setIfInBounds i (N.hash (.row row)), insert cache (N.hash (.row row)) offset))
    (junk, s.rowHashCache)

def decompressTreeNode (s : State K R H) (c : CompressedTreeNode K)
    (junk : Vector H maxTreeNodeValues) : Option (State K R H × TreeNode K H H) := do
  let (values, rowHashCache) ← decompressValues N s c junk c.numValues
  let left ← s.hashIndexFile[c.left]?
  let right ← s.hashIndexFile[c.right]?
  let indexHashCache := insert (insert s.indexHashCache left c.left) right c.right
  some ({ s with rowHashCache, indexHashCache },
    { left, right, key := c.key, numValues := c.numValues, values
      height := c.height, heightLeft := c.heightLeft, heightRight := c.heightRight })

/-- `get`: there is no block if the result is `false`. A block of the database that has the size of
a compressed node is read as one, by `compressedOf`. -/
def get (compressedOf : Bits → Option (CompressedTreeNode K)) (s : State K R H) (key : H)
    (junk : Vector H maxTreeNodeValues) : Option (State K R H × Option (Block K R H)) :=
  match s.rowHashCache key with
  | some offset => do
    let row ← s.rowFile[offset]?
    some (s, some (.row row))
  | none =>
    match s.indexHashCache key with
    | some offset => do
      let c ← s.indexFile[offset]?
      let (s, f) ← decompressTreeNode N s c junk
      some (s, some (.node f))
    | none =>
      match s.store key with
      | some bytes =>
        match compressedOf (byteArrayToBits bytes) with
        | some c => do
          let (s, f) ← decompressTreeNode N s c junk
          some (s, some (.node f))
        | none => some (s, some (.other (byteArrayToBits bytes)))
      | none => some (s, none)

def put (s : State K R H) (key : H) (b : Block K R H) (junk : Vector ℕ maxTreeNodeValues) :
    Option (State K R H) :=
  match b with
  | .row row =>
    some { s with
      rowFile := s.rowFile ++ [row]
      rowHashCache := insert s.rowHashCache key (uint32 s.rowFile.length) }
  | .node f => do
    let c ← compressTreeNode N s f junk
    some { s with
      indexFile := s.indexFile ++ [c]
      hashIndexFile := s.hashIndexFile ++ [key]
      indexHashCache := insert s.indexHashCache key (uint32 s.indexFile.length) }
  | .other bits =>
    some { s with store := Function.update s.store key (some (bitsToByteArray bits)) }

/-! ## Caches and positions -/

section
variable {N}

/-- The positions of a cache are those of rows with the hashes. -/
def RowsCached (N : BlockHash K R H) (rows : List R) (cache : H → Option ℕ) : Prop :=
  ∀ h i, cache h = some i → ∃ row, rows[i]? = some row ∧ h = N.hash (.row row)

def NodesCached (hashes : List H) (cache : H → Option ℕ) : Prop :=
  ∀ h i, cache h = some i → hashes[i]? = some h

section
variable {cache : H → Option ℕ} {h k : H} {offset i : ℕ}

theorem isSome_insert : (insert cache h offset k).isSome ↔ k = h ∨ (cache k).isSome := by
  rw [insert]
  split_ifs with hsome
  · exact ⟨.inr, fun hor => hor.elim (fun heq => heq ▸ hsome) id⟩
  · by_cases heq : k = h
    · rw [heq, Function.update_self]
      exact ⟨fun _ => .inl rfl, fun _ => rfl⟩
    · rw [Function.update_of_ne heq]
      exact ⟨.inr, fun hor => hor.resolve_left heq⟩

theorem insert_eq_some (hk : insert cache h offset k = some i) :
    cache k = some i ∨ k = h ∧ i = offset := by
  rw [insert] at hk
  split_ifs at hk with hsome
  · exact .inl hk
  · by_cases heq : k = h
    · rw [heq, Function.update_self] at hk
      exact .inr ⟨heq, (Option.some.inj hk).symm⟩
    · rw [Function.update_of_ne heq] at hk
      exact .inl hk

theorem RowsCached.insert {rows : List R} {row : R} (hc : RowsCached N rows cache)
    (hrow : rows[offset]? = some row) :
    RowsCached N rows (insert cache (N.hash (.row row)) offset) := by
  intro k i hk
  obtain hk | ⟨rfl, rfl⟩ := insert_eq_some hk
  · exact hc k i hk
  · exact ⟨row, hrow, rfl⟩

theorem NodesCached.insert {hashes : List H} (hc : NodesCached hashes cache)
    (hh : hashes[offset]? = some h) : NodesCached hashes (insert cache h offset) := by
  intro k i hk
  obtain hk | ⟨rfl, rfl⟩ := insert_eq_some hk
  · exact hc k i hk
  · exact hh

end

/-- A compressed node stands for a node, up to the values that are not used. -/
structure Represents (N : BlockHash K R H) (rows : List R) (hashes : List H)
    (c : CompressedTreeNode K) (f : TreeNode K H H) : Prop where
  left : hashes[c.left]? = some f.left
  right : hashes[c.right]? = some f.right
  key : c.key = f.key
  numValues : c.numValues = f.numValues
  height : c.height = f.height
  heightLeft : c.heightLeft = f.heightLeft
  heightRight : c.heightRight = f.heightRight
  le : f.numValues ≤ maxTreeNodeValues
  values : ∀ j < f.numValues, ∃ offset row, c.values[j]? = some offset ∧ rows[offset]? = some row ∧
    f.values[j]? = some (N.hash (.row row))

theorem getElem?_append_of_some {α : Type} {l : List α} {i : ℕ} {x : α} (h : l[i]? = some x)
    (l' : List α) : (l ++ l')[i]? = some x := by
  obtain ⟨hi, -⟩ := List.getElem?_eq_some_iff.1 h
  rw [List.getElem?_append_left hi, h]

variable {c : CompressedTreeNode K} {f : TreeNode K H H}

omit [DecidableEq H] in
theorem Represents.append {rows : List R} {hashes : List H} (h : Represents N rows hashes c f)
    (rows' : List R) (hashes' : List H) : Represents N (rows ++ rows') (hashes ++ hashes') c f :=
  { h with
    left := getElem?_append_of_some h.left _
    right := getElem?_append_of_some h.right _
    values := fun j hj => by
      obtain ⟨offset, row, hoffset, hrow, hvalue⟩ := h.values j hj
      exact ⟨offset, row, hoffset, getElem?_append_of_some hrow _, hvalue⟩ }

/-! ## Nodes -/

/-- A state with the same files whose caches have grown. -/
structure Looked (N : BlockHash K R H) (s s' : State K R H) : Prop where
  rowFile : s'.rowFile = s.rowFile
  indexFile : s'.indexFile = s.indexFile
  hashIndexFile : s'.hashIndexFile = s.hashIndexFile
  store : s'.store = s.store
  rows : RowsCached N s.rowFile s'.rowHashCache
  nodes : NodesCached s.hashIndexFile s'.indexHashCache
  rowGrows : ∀ h, (s.rowHashCache h).isSome → (s'.rowHashCache h).isSome
  nodeGrows : ∀ h, (s.indexHashCache h).isSome → (s'.indexHashCache h).isSome

section
variable {s : State K R H} (hrows : RowsCached N s.rowFile s.rowHashCache)
include hrows

theorem exists_decompressValues (h : Represents N s.rowFile s.hashIndexFile c f)
    (junk : Vector H maxTreeNodeValues) {n : ℕ} (hn : n ≤ f.numValues) :
    ∃ values cache, decompressValues N s c junk n = some (values, cache) ∧
      RowsCached N s.rowFile cache ∧ (∀ k, (s.rowHashCache k).isSome → (cache k).isSome) ∧
      ∀ j < n, values[j]? = f.values[j]? ∧ ∀ k ∈ values[j]?, (cache k).isSome := by
  induction n with
  | zero => exact ⟨junk, s.rowHashCache, rfl, hrows, fun _ => id, fun j hj => absurd hj
      (Nat.not_lt_zero j)⟩
  | succ n ih =>
    obtain ⟨values, cache, hrun, hcached, hgrows, hvalues⟩ := ih (by omega)
    obtain ⟨offset, row, hoffset, hrow, hvalue⟩ := h.values n (by omega)
    have hle := h.le
    refine ⟨values.setIfInBounds n (N.hash (.row row)), insert cache (N.hash (.row row)) offset, ?_,
      hcached.insert hrow, fun k hk => isSome_insert.2 (.inr (hgrows k hk)), fun j hj => ?_⟩
    · rw [decompressValues] at hrun ⊢
      rw [List.range_succ, List.foldlM_append, hrun, Option.bind_eq_bind, Option.bind_some]
      simp only [List.foldlM_cons, List.foldlM_nil, hoffset, hrow, Option.bind_eq_bind,
        Option.bind_some]
      rfl
    · rcases Nat.lt_succ_iff_lt_or_eq.1 hj with hj | rfl
      · obtain ⟨hvalue', hk⟩ := hvalues j hj
        rw [Vector.getElem?_setIfInBounds_ne (by omega)]
        exact ⟨hvalue', fun k hmem => isSome_insert.2 (.inr (hk k hmem))⟩
      · rw [Vector.getElem?_setIfInBounds_self_of_lt (by omega)]
        refine ⟨hvalue.symm, fun k hmem => isSome_insert.2 (.inl ?_)⟩
        exact (Option.some.inj hmem).symm

variable (hnodes : NodesCached s.hashIndexFile s.indexHashCache)
include hnodes

/-- A node is rebuilt up to the values that are not used, and its hashes are cached. -/
theorem exists_decompressTreeNode (h : Represents N s.rowFile s.hashIndexFile c f)
    (junk : Vector H maxTreeNodeValues) :
    ∃ s' g, decompressTreeNode N s c junk = some (s', g) ∧ Looked N s s' ∧
      (s'.indexHashCache g.left).isSome ∧ (s'.indexHashCache g.right).isSome ∧
      (∀ j < g.numValues, ∀ k ∈ g.values[j]?, (s'.rowHashCache k).isSome) ∧
      (f.numValues = maxTreeNodeValues → g = f) := by
  obtain ⟨values, cache, hrun, hcached, hgrows, hvalues⟩ :=
    exists_decompressValues hrows h junk le_rfl
  rw [decompressTreeNode, h.numValues, hrun, h.left, h.right]
  refine ⟨_, _, rfl, ⟨rfl, rfl, rfl, rfl, hcached, (hnodes.insert h.left).insert h.right, hgrows,
    fun k hk => isSome_insert.2 (.inr (isSome_insert.2 (.inr hk)))⟩,
    isSome_insert.2 (.inr (isSome_insert.2 (.inl rfl))), isSome_insert.2 (.inl rfl),
    fun j hj => (hvalues j hj).2, fun hfull => ?_⟩
  have heq : values = f.values := by
    refine Vector.ext fun j hj => ?_
    have hj' := (hvalues j (by omega)).1
    rwa [Vector.getElem?_eq_getElem hj, Vector.getElem?_eq_getElem hj, Option.some.injEq] at hj'
  rw [h.key, h.height, h.heightLeft, h.heightRight, heq]

/-- A node whose rows and children are cached is compressed. -/
theorem exists_compressTreeNode (hnull : s.hashIndexFile[0]? = some N.null)
    (hle : f.numValues ≤ maxTreeNodeValues)
    (hvalues : ∀ j < f.numValues, ∀ k ∈ f.values[j]?, (s.rowHashCache k).isSome)
    (hleft : f.left = N.null ∨ (s.indexHashCache f.left).isSome)
    (hright : f.right = N.null ∨ (s.indexHashCache f.right).isSome)
    (junk : Vector ℕ maxTreeNodeValues) :
    ∃ c, compressTreeNode N s f junk = some c ∧ Represents N s.rowFile s.hashIndexFile c f := by
  have hchild (h : H) (hh : h = N.null ∨ (s.indexHashCache h).isSome) :
      ∃ offset, childOffset N s h = some offset ∧ s.hashIndexFile[offset]? = some h := by
    rw [childOffset]
    split_ifs with hnull'
    · exact ⟨0, rfl, hnull' ▸ hnull⟩
    · obtain ⟨offset, hoffset⟩ := Option.isSome_iff_exists.1 (hh.resolve_left hnull')
      exact ⟨offset, hoffset, hnodes h offset hoffset⟩
  obtain ⟨left, hleft, hleft'⟩ := hchild f.left hleft
  obtain ⟨right, hright, hright'⟩ := hchild f.right hright
  have hloop (n : ℕ) (hn : n ≤ f.numValues) : ∃ values : Vector ℕ maxTreeNodeValues,
      (List.range n).foldlM (fun values i => do
        let h ← f.values[i]?
        let offset ← s.rowHashCache h
        some (values.setIfInBounds i offset)) junk = some values ∧
      ∀ j < n, ∃ offset row, values[j]? = some offset ∧ s.rowFile[offset]? = some row ∧
        f.values[j]? = some (N.hash (.row row)) := by
    induction n with
    | zero => exact ⟨junk, rfl, fun j hj => absurd hj (Nat.not_lt_zero j)⟩
    | succ n ih =>
      obtain ⟨values, hrun, hdone⟩ := ih (by omega)
      have hvalue : f.values[n]? = some f.values[n] := Vector.getElem?_eq_getElem (by omega)
      obtain ⟨offset, hoffset⟩ := Option.isSome_iff_exists.1 (hvalues n hn _ hvalue)
      obtain ⟨row, hrow, hhash⟩ := hrows _ _ hoffset
      refine ⟨values.setIfInBounds n offset, ?_, fun j hj => ?_⟩
      · rw [List.range_succ, List.foldlM_append, hrun, Option.bind_eq_bind, Option.bind_some]
        simp only [List.foldlM_cons, List.foldlM_nil, hvalue, hoffset, Option.bind_eq_bind,
          Option.bind_some]
        rfl
      · rcases Nat.lt_succ_iff_lt_or_eq.1 hj with hj | rfl
        · rw [Vector.getElem?_setIfInBounds_ne (by omega)]
          exact hdone j hj
        · rw [Vector.getElem?_setIfInBounds_self_of_lt (by omega)]
          exact ⟨offset, row, rfl, hrow, by rw [hvalue, hhash]⟩
  obtain ⟨values, hrun, hdone⟩ := hloop f.numValues le_rfl
  rw [compressTreeNode, hrun, hleft, hright]
  exact ⟨_, rfl, hleft', hright', rfl, rfl, rfl, rfl, rfl, hle, hdone⟩

end

/-! ## Runs -/

/-- An operation that was made. -/
inductive Op (K R H : Type)
  | put (b : Block K R H)
  | got (key : H) (result : Option (Block K R H))

variable {compressedOf : Bits → Option (CompressedTreeNode K)} {ops : List (Op K R H)}
  {s s' : State K R H}

/-- The hash of a row that was put or of a value in a node that was got. -/
def RowKnown (N : BlockHash K R H) (ops : List (Op K R H)) (h : H) : Prop :=
  (∃ r, .put (.row r) ∈ ops ∧ h = N.hash (.row r)) ∨
    ∃ key f, .got key (some (.node f)) ∈ ops ∧ ∃ j < f.numValues, h ∈ f.values[j]?

/-- The hash of a node that was put or of a child in a node that was got. -/
def NodeKnown (N : BlockHash K R H) (ops : List (Op K R H)) (h : H) : Prop :=
  (∃ f, .put (.node f) ∈ ops ∧ h = N.hash (.node f)) ∨
    ∃ key f, .got key (some (.node f)) ∈ ops ∧ (h = f.left ∨ h = f.right)

/-- The rows and the children of a node that is put are known. -/
def Admissible (N : BlockHash K R H) (ops : List (Op K R H)) : Block K R H → Prop
  | .node f => f.numValues ≤ maxTreeNodeValues ∧
    (∀ j < f.numValues, ∀ h ∈ f.values[j]?, RowKnown N ops h) ∧
    (f.left = N.null ∨ NodeKnown N ops f.left) ∧ (f.right = N.null ∨ NodeKnown N ops f.right)
  | _ => True

/-- The files before and after any operation: every entry stands for a node, the first one for
none. -/
structure Consistent (N : BlockHash K R H) (compressedOf : Bits → Option (CompressedTreeNode K))
    (s : State K R H) : Prop where
  null : s.hashIndexFile[0]? = some N.null
  length : s.indexFile.length = s.hashIndexFile.length
  entries : ∀ i c, s.indexFile[i]? = some c → ∃ f, Represents N s.rowFile s.hashIndexFile c f ∧
    (i ≠ 0 → s.hashIndexFile[i]? = some (N.hash (.node f)))
  bootstrap : ∀ key bytes c, s.store key = some bytes → compressedOf (byteArrayToBits bytes) =
    some c → ∃ f, Represents N s.rowFile s.hashIndexFile c f

structure Opened (N : BlockHash K R H) (compressedOf : Bits → Option (CompressedTreeNode K))
    (s : State K R H) : Prop extends Consistent N compressedOf s where
  rowHashCache : s.rowHashCache = fun _ => none
  indexHashCache : s.indexHashCache = fun _ => none

/-- The operations after the store was opened, the last one first, while the positions are less than
`2^32`. -/
inductive Run (N : BlockHash K R H) (compressedOf : Bits → Option (CompressedTreeNode K)) :
    List (Op K R H) → State K R H → Prop
  | opened {s : State K R H} : Opened N compressedOf s → Run N compressedOf [] s
  | put {ops : List (Op K R H)} {s s' : State K R H} {b junk} : Run N compressedOf ops s →
      Admissible N ops b →
    s.rowFile.length < 2 ^ 32 → s.indexFile.length < 2 ^ 32 → put N s (N.hash b) b junk = some s' →
    Run N compressedOf (.put b :: ops) s'
  | get {ops : List (Op K R H)} {s s' : State K R H} {key junk r} : Run N compressedOf ops s →
    get N compressedOf s key junk = some (s', r) →
    Run N compressedOf (.got key r :: ops) s'

/-- A block that the store can keep: all values of a node are used, and another block has whole
bytes and not the size of a compressed node. -/
def Lossless (compressedOf : Bits → Option (CompressedTreeNode K)) : Block K R H → Prop
  | .row _ => True
  | .node f => f.numValues = maxTreeNodeValues
  | .other bits => 8 ∣ bits.length ∧ compressedOf bits = none

/-- The caches have what is known, and the database has the other blocks. -/
structure Valid (N : BlockHash K R H) (compressedOf : Bits → Option (CompressedTreeNode K))
    (ops : List (Op K R H)) (s : State K R H) : Prop extends Consistent N compressedOf s where
  rows : RowsCached N s.rowFile s.rowHashCache
  nodes : NodesCached s.hashIndexFile s.indexHashCache
  rowKnown : ∀ h, RowKnown N ops h → (s.rowHashCache h).isSome
  nodeKnown : ∀ h, NodeKnown N ops h → (s.indexHashCache h).isSome
  others : ∀ bits, .put (.other bits) ∈ ops →
    s.store (N.hash (.other bits)) = some (bitsToByteArray bits)

omit [DecidableEq H] in
theorem Opened.valid (h : Opened N compressedOf s) : Valid N compressedOf [] s :=
  { h with
    rows := fun k i hk => by rw [h.rowHashCache] at hk; cases hk
    nodes := fun k i hk => by rw [h.indexHashCache] at hk; cases hk
    rowKnown := by rintro k (⟨_, hmem, -⟩ | ⟨_, _, hmem, -⟩) <;> cases hmem
    nodeKnown := by rintro k (⟨_, hmem, -⟩ | ⟨_, _, hmem, -⟩) <;> cases hmem
    others := fun bits hmem => by cases hmem }

variable {b : Block K R H}

omit [DecidableEq H] in
/-- A block that was put and is in no cache is in the database. -/
theorem Valid.exists_other (h : Valid N compressedOf ops s) (hb : .put b ∈ ops)
    (hrow : s.rowHashCache (N.hash b) = none) (hnode : s.indexHashCache (N.hash b) = none) :
    ∃ bits, b = .other bits ∧ s.store (N.hash b) = some (bitsToByteArray bits) := by
  cases b with
  | row r =>
    have hsome := h.rowKnown _ (.inl ⟨r, hb, rfl⟩)
    rw [hrow] at hsome
    cases hsome
  | node f =>
    have hsome := h.nodeKnown _ (.inl ⟨f, hb, rfl⟩)
    rw [hnode] at hsome
    cases hsome
  | other bits => exact ⟨bits, rfl, h.others bits hb⟩

omit [DecidableEq H] in
/-- A lookup keeps the invariant, if it caches the hashes of a node that it returns. -/
theorem Valid.looked (h : Valid N compressedOf ops s) (hlooked : Looked N s s') {key : H}
    {r : Option (Block K R H)}
    (hnode : ∀ g, r = some (.node g) → (s'.indexHashCache g.left).isSome ∧
      (s'.indexHashCache g.right).isSome ∧
        ∀ j < g.numValues, ∀ k ∈ g.values[j]?, (s'.rowHashCache k).isSome) :
    Valid N compressedOf (.got key r :: ops) s' := by
  obtain ⟨hrowFile, hindexFile, hhashFile, hstore, hrows, hnodes, hrowGrows, hnodeGrows⟩ := hlooked
  constructor
  · constructor
    · rw [hhashFile]
      exact h.null
    · rw [hindexFile, hhashFile]
      exact h.length
    · rw [hindexFile, hrowFile, hhashFile]
      exact h.entries
    · rw [hstore, hrowFile, hhashFile]
      exact h.bootstrap
  · rw [hrowFile]
    exact hrows
  · rw [hhashFile]
    exact hnodes
  · rintro k (⟨row, hmem, rfl⟩ | ⟨key', f, hmem, j, hj, hk⟩)
    · obtain _ | ⟨_, hmem⟩ := hmem
      exact hrowGrows _ (h.rowKnown _ (.inl ⟨row, hmem, rfl⟩))
    · obtain _ | ⟨_, hmem⟩ := hmem
      · exact (hnode f rfl).2.2 j hj k hk
      · exact hrowGrows _ (h.rowKnown _ (.inr ⟨key', f, hmem, j, hj, hk⟩))
  · rintro k (⟨f, hmem, rfl⟩ | ⟨key', f, hmem, hk⟩)
    · obtain _ | ⟨_, hmem⟩ := hmem
      exact hnodeGrows _ (h.nodeKnown _ (.inl ⟨f, hmem, rfl⟩))
    · obtain _ | ⟨_, hmem⟩ := hmem
      · obtain ⟨hleft, hright, -⟩ := hnode f rfl
        exact hk.elim (fun hk => hk ▸ hleft) fun hk => hk ▸ hright
      · exact hnodeGrows _ (h.nodeKnown _ (.inr ⟨key', f, hmem, hk⟩))
  · intro bits hmem
    obtain _ | ⟨_, hmem⟩ := hmem
    rw [hstore]
    exact h.others bits hmem

theorem Valid.get (h : Valid N compressedOf ops s) (key : H) (junk : Vector H maxTreeNodeValues) :
    ∃ s' r, get N compressedOf s key junk = some (s', r) ∧ Valid N compressedOf (.got key r :: ops)
      s' ∧ ∀ b, .put b ∈ ops → Lossless compressedOf b → key = N.hash b → r = some b := by
  have hrefl : Looked N s s := ⟨rfl, rfl, rfl, rfl, h.rows, h.nodes, fun _ => id, fun _ => id⟩
  rw [DbStore.get]
  split
  next offset hrow =>
    obtain ⟨row, hget, hkey⟩ := h.rows key offset hrow
    rw [hget]
    refine ⟨s, _, rfl, h.looked hrefl (nofun), fun b _ _ hb => ?_⟩
    rw [N.injective (hkey.symm.trans hb)]
  next hrow =>
    split
    next offset hnode =>
      have hhash := h.nodes key offset hnode
      obtain ⟨hlt, -⟩ := List.getElem?_eq_some_iff.1 hhash
      rw [← h.length] at hlt
      have hget : s.indexFile[offset]? = some s.indexFile[offset] := List.getElem?_eq_getElem hlt
      obtain ⟨f, hf, hkey⟩ := h.entries offset _ hget
      obtain ⟨s', g, hrun, hlooked, hleft, hright, hvalues, hfull⟩ :=
        exists_decompressTreeNode h.rows h.nodes hf junk
      rw [hget, Option.bind_eq_bind, Option.bind_some, hrun]
      refine ⟨s', _, rfl, h.looked hlooked fun g' hg' => ?_, fun b _ hb hkey' => ?_⟩
      · obtain rfl := Block.node.inj (Option.some.inj hg')
        exact ⟨hleft, hright, hvalues⟩
      · have hne : offset ≠ 0 := by
          rintro rfl
          rw [h.null] at hhash
          exact N.ne_null b ((Option.some.inj hhash).trans hkey').symm
        have hhash' := hkey hne
        rw [hhash, hkey'] at hhash'
        obtain rfl := N.injective (Option.some.inj hhash')
        rw [hfull hb]
    next hnode =>
      split
      next bytes hstore =>
        split
        next c hc =>
          obtain ⟨f, hf⟩ := h.bootstrap key bytes c hstore hc
          obtain ⟨s', g, hrun, hlooked, hleft, hright, hvalues, -⟩ :=
            exists_decompressTreeNode h.rows h.nodes hf junk
          rw [hrun]
          refine ⟨s', _, rfl, h.looked hlooked fun g' hg' => ?_, fun b hmem hb hkey => ?_⟩
          · obtain rfl := Block.node.inj (Option.some.inj hg')
            exact ⟨hleft, hright, hvalues⟩
          · subst hkey
            obtain ⟨bits, rfl, hbits⟩ := h.exists_other hmem hrow hnode
            obtain rfl := Option.some.inj (hstore.symm.trans hbits)
            rw [byteArrayToBits_of_dvd hb.1, hb.2] at hc
            cases hc
        next hc =>
          refine ⟨s, _, rfl, h.looked hrefl (nofun), fun b hmem hb hkey => ?_⟩
          subst hkey
          obtain ⟨bits, rfl, hbits⟩ := h.exists_other hmem hrow hnode
          obtain rfl := Option.some.inj (hstore.symm.trans hbits)
          rw [byteArrayToBits_of_dvd hb.1]
      next hstore =>
        refine ⟨s, _, rfl, h.looked hrefl (nofun), fun b hmem _ hkey => ?_⟩
        subst hkey
        obtain ⟨bits, -, hbits⟩ := h.exists_other hmem hrow hnode
        rw [hstore] at hbits
        cases hbits

omit [DecidableEq H] in
theorem RowKnown.of_put {k : H} (h : RowKnown N (.put b :: ops) k) :
    (∃ r, b = .row r ∧ k = N.hash b) ∨ RowKnown N ops k := by
  obtain ⟨r, hmem, rfl⟩ | ⟨key, f, hmem, hk⟩ := h
  · obtain _ | ⟨_, hmem⟩ := hmem
    · exact .inl ⟨r, rfl, rfl⟩
    · exact .inr (.inl ⟨r, hmem, rfl⟩)
  · obtain _ | ⟨_, hmem⟩ := hmem
    exact .inr (.inr ⟨key, f, hmem, hk⟩)

omit [DecidableEq H] in
theorem NodeKnown.of_put {k : H} (h : NodeKnown N (.put b :: ops) k) :
    (∃ f, b = .node f ∧ k = N.hash b) ∨ NodeKnown N ops k := by
  obtain ⟨f, hmem, rfl⟩ | ⟨key, f, hmem, hk⟩ := h
  · obtain _ | ⟨_, hmem⟩ := hmem
    · exact .inl ⟨f, rfl, rfl⟩
    · exact .inr (.inl ⟨f, hmem, rfl⟩)
  · obtain _ | ⟨_, hmem⟩ := hmem
    exact .inr (.inr ⟨key, f, hmem, hk⟩)

section
variable (h : Valid N compressedOf ops s)
include h

theorem Valid.putRow (row : R) :
    Valid N compressedOf (.put (.row row) :: ops)
      { s with
        rowFile := s.rowFile ++ [row]
        rowHashCache := insert s.rowHashCache (N.hash (.row row)) s.rowFile.length } := by
  have happend {c : CompressedTreeNode K} {f : TreeNode K H H}
      (hf : Represents N s.rowFile s.hashIndexFile c f) :
      Represents N (s.rowFile ++ [row]) s.hashIndexFile c f := by
    simpa using hf.append [row] []
  constructor
  · refine ⟨h.null, h.length, fun i c hc => ?_, fun key bytes c hbytes hc => ?_⟩
    · obtain ⟨f, hf, hkey⟩ := h.entries i c hc
      exact ⟨f, happend hf, hkey⟩
    · obtain ⟨f, hf⟩ := h.bootstrap key bytes c hbytes hc
      exact ⟨f, happend hf⟩
  · intro k i hk
    obtain hk | ⟨rfl, rfl⟩ := insert_eq_some hk
    · obtain ⟨row', hrow', rfl⟩ := h.rows k i hk
      exact ⟨row', getElem?_append_of_some hrow' _, rfl⟩
    · exact ⟨row, List.getElem?_concat_length, rfl⟩
  · exact h.nodes
  · intro k hk
    rw [isSome_insert]
    exact hk.of_put.imp (fun ⟨_, _, hk⟩ => hk) (h.rowKnown k)
  · intro k hk
    exact hk.of_put.elim (fun ⟨_, hb, _⟩ => nomatch hb) (h.nodeKnown k)
  · intro bits hmem
    obtain _ | ⟨_, hmem⟩ := hmem
    exact h.others bits hmem

theorem Valid.putNode (hc : Represents N s.rowFile s.hashIndexFile c f) :
    Valid N compressedOf (.put (.node f) :: ops)
      { s with
        indexFile := s.indexFile ++ [c]
        hashIndexFile := s.hashIndexFile ++ [N.hash (.node f)]
        indexHashCache := insert s.indexHashCache (N.hash (.node f)) s.indexFile.length } := by
  have happend {c : CompressedTreeNode K} {f' : TreeNode K H H}
      (hf : Represents N s.rowFile s.hashIndexFile c f') :
      Represents N s.rowFile (s.hashIndexFile ++ [N.hash (.node f)]) c f' := by
    simpa using hf.append [] [N.hash (.node f)]
  have hlast : (s.hashIndexFile ++ [N.hash (.node f)])[s.indexFile.length]? =
    some (N.hash (.node f)) := by
    rw [h.length, List.getElem?_concat_length]
  constructor
  · refine ⟨getElem?_append_of_some h.null _, ?_, fun i c' hc' =>
      ?_, fun key bytes c' hbytes hc' => ?_⟩
    · simp only [List.length_append, List.length_singleton, h.length]
    · rcases Nat.lt_or_ge i s.indexFile.length with hi | hi
      · rw [List.getElem?_append_left hi] at hc'
        obtain ⟨f', hf', hkey⟩ := h.entries i c' hc'
        exact ⟨f', happend hf', fun hne => getElem?_append_of_some (hkey hne) _⟩
      · rw [List.getElem?_append_right hi] at hc'
        obtain ⟨hlt, heq⟩ := List.getElem?_eq_some_iff.1 hc'
        rw [List.getElem_singleton] at heq
        rw [List.length_singleton] at hlt
        obtain rfl : i = s.indexFile.length := by omega
        exact ⟨f, heq ▸ happend hc, fun _ => hlast⟩
    · obtain ⟨f', hf'⟩ := h.bootstrap key bytes c' hbytes hc'
      exact ⟨f', happend hf'⟩
  · exact h.rows
  · intro k i hk
    obtain hk | ⟨rfl, rfl⟩ := insert_eq_some hk
    · exact getElem?_append_of_some (h.nodes k i hk) _
    · exact hlast
  · intro k hk
    exact hk.of_put.elim (fun ⟨_, hb, _⟩ => nomatch hb) (h.rowKnown k)
  · intro k hk
    rw [isSome_insert]
    exact hk.of_put.imp (fun ⟨_, _, hk⟩ => hk) (h.nodeKnown k)
  · intro bits hmem
    obtain _ | ⟨_, hmem⟩ := hmem
    exact h.others bits hmem

theorem Valid.putOther {bits : Bits} (hbits : 8 ∣ bits.length) (hnone : compressedOf bits = none) :
    Valid N compressedOf (.put (.other bits) :: ops)
      { s with store :=
          Function.update s.store (N.hash (.other bits)) (some (bitsToByteArray bits)) } := by
  constructor
  · refine ⟨h.null, h.length, h.entries, fun key bytes c hbytes hc => ?_⟩
    dsimp only at hbytes
    by_cases hkey : key = N.hash (.other bits)
    · rw [hkey, Function.update_self] at hbytes
      rw [← Option.some.inj hbytes, byteArrayToBits_of_dvd hbits, hnone] at hc
      cases hc
    · rw [Function.update_of_ne hkey] at hbytes
      exact h.bootstrap key bytes c hbytes hc
  · exact h.rows
  · exact h.nodes
  · intro k hk
    exact hk.of_put.elim (fun ⟨_, hb, _⟩ => nomatch hb) (h.rowKnown k)
  · intro k hk
    exact hk.of_put.elim (fun ⟨_, hb, _⟩ => nomatch hb) (h.nodeKnown k)
  · intro bits' hmem
    by_cases hkey : N.hash (.other bits') = N.hash (.other bits)
    · obtain rfl := Block.other.inj (N.injective hkey)
      exact Function.update_self ..
    · obtain _ | ⟨_, hmem⟩ := hmem
      · exact absurd rfl hkey
      · exact (Function.update_of_ne hkey ..).trans (h.others bits' hmem)

theorem Valid.put (hb : Admissible N ops b)
    (hlossless : Lossless compressedOf b) (junk : Vector ℕ maxTreeNodeValues) :
    ∃ s', put N s (N.hash b) b junk = some s' ∧
      (s.rowFile.length < 2 ^ 32 → s.indexFile.length < 2 ^ 32 → Valid N compressedOf
        (.put b :: ops) s') := by
  cases b with
  | row row =>
    refine ⟨_, rfl, fun hfits _ => ?_⟩
    rw [uint32_of_lt hfits]
    exact h.putRow row
  | node f =>
    obtain ⟨hle, hvalues, hleft, hright⟩ := hb
    obtain ⟨c, hcompress, hc⟩ := exists_compressTreeNode h.rows h.nodes h.null hle
      (fun j hj k hk => h.rowKnown k (hvalues j hj k hk)) (hleft.imp_right (h.nodeKnown _))
      (hright.imp_right (h.nodeKnown _)) junk
    rw [DbStore.put, hcompress]
    refine ⟨_, rfl, fun _ hfits => ?_⟩
    rw [uint32_of_lt hfits]
    exact h.putNode hc
  | other bits => exact ⟨_, rfl, fun _ _ => h.putOther hlossless.1 hlossless.2⟩

end

theorem Run.valid (h : Run N compressedOf ops s)
    (hlossless : ∀ b, .put b ∈ ops → Lossless compressedOf b) : Valid N compressedOf ops s := by
  induction h with
  | opened h => exact h.valid
  | put _ hb hrows hindex hput ih =>
    have hvalid := ih fun b hmem => hlossless b (List.mem_cons_of_mem _ hmem)
    obtain ⟨s₁, hput₁, hvalid₁⟩ := hvalid.put hb (hlossless _ List.mem_cons_self) _
    obtain rfl := Option.some.inj (hput₁.symm.trans hput)
    exact hvalid₁ hrows hindex
  | get _ hget ih =>
    have hvalid := ih fun b hmem => hlossless b (List.mem_cons_of_mem _ hmem)
    obtain ⟨s₁, r, hget₁, hvalid₁, -⟩ := hvalid.get _ _
    obtain ⟨rfl, rfl⟩ := Prod.mk.inj (Option.some.inj (hget₁.symm.trans hget))
    exact hvalid₁

/-- A new store of the same files. -/
def reopened (s : State K R H) : State K R H :=
  { s with rowHashCache := fun _ => none, indexHashCache := fun _ => none }

end

/-- Every operation succeeds, and every block that was put is got as it was, if all values of the
nodes that were put are used, and the other blocks have whole bytes and not the size of a compressed
node. -/
theorem get_put {N : BlockHash K R H} {compressedOf : Bits → Option (CompressedTreeNode K)}
    {ops : List (Op K R H)} {s : State K R H} (h : Run N compressedOf ops s)
    (hlossless : ∀ b, .put b ∈ ops → Lossless compressedOf b) :
    (∀ b junk, Admissible N ops b → Lossless compressedOf b → (put N s (N.hash b) b junk).isSome) ∧
      (∀ key junk, (get N compressedOf s key junk).isSome) ∧
      ∀ b junk, .put b ∈ ops → ∃ s', get N compressedOf s (N.hash b) junk = some (s', some b) := by
  have hvalid := h.valid hlossless
  refine ⟨fun b junk hb hb' => ?_, fun key junk => ?_, fun b junk hb => ?_⟩
  · obtain ⟨s', hput, -⟩ := hvalid.put hb hb' junk
    rw [hput]
    rfl
  · obtain ⟨s', r, hget, -⟩ := hvalid.get key junk
    rw [hget]
    rfl
  · obtain ⟨s', r, hget, -, hr⟩ := hvalid.get (N.hash b) junk
    exact ⟨s', by rw [hget, hr b hb (hlossless b hb) rfl]⟩

/-- The hash of a block is the block, with the hashes of its rows and children in it. -/
inductive FreeHash
  | null
  | row (content : ℕ)
  | node (left right value : FreeHash) (key numValues height heightLeft heightRight : ℕ)
  | other (bits : Bits)
deriving DecidableEq

def freeHash : BlockHash ℕ ℕ FreeHash where
  hash
    | .row content => .row content
    | .node f =>
      .node f.left f.right (f.values.get ⟨0, Nat.one_pos⟩) f.key f.numValues f.height
        f.heightLeft f.heightRight
    | .other bits => .other bits
  null := .null
  injective := by
    rintro (r | ⟨⟨num, values⟩, left, right, key, h, hl, hr⟩ | bits)
      (r' | ⟨⟨num', values'⟩, left', right', key', h', hl', hr'⟩ | bits') heq <;> try cases heq
    · rfl
    · obtain ⟨rfl, rfl, hvalue, rfl, rfl, rfl, rfl, rfl⟩ := FreeHash.node.inj heq
      have hvalues : values = values' := by
        refine Vector.ext fun i hi => ?_
        obtain rfl : i = 0 := Nat.lt_one_iff.1 hi
        exact hvalue
      rw [hvalues]
    · rfl
  ne_null b := by cases b <;> nofun

/-- Files with the null entry only. -/
def emptyStore : State ℕ ℕ FreeHash where
  rowFile := []
  indexFile := [⟨0, 0, 0, 0, Vector.replicate _ 0, 0, 0, 0⟩]
  hashIndexFile := [.null]
  rowHashCache _ := none
  indexHashCache _ := none
  store _ := none

theorem opened_emptyStore : Opened freeHash (fun _ => none) emptyStore where
  null := rfl
  length := rfl
  entries i c hc := by
    obtain _ | i := i
    · obtain rfl := Option.some.inj hc
      refine ⟨⟨⟨0, Vector.replicate _ .null⟩, .null, .null, 0, 0, 0, 0⟩, ?_,
        fun hne => absurd rfl hne⟩
      exact ⟨rfl, rfl, rfl, rfl, rfl, rfl, rfl, Nat.zero_le _, fun j hj => absurd hj
        (Nat.not_lt_zero j)⟩
    · cases hc
  bootstrap key bytes c hbytes := nomatch hbytes
  rowHashCache := rfl
  indexHashCache := rfl

/-- A node with one value. -/
def oneRow : TreeNode ℕ FreeHash FreeHash :=
  ⟨⟨1, Vector.replicate _ (.row 5)⟩, .null, .null, 3, 1, 0, 0⟩

/-- A node whose value was removed. -/
def noRow : TreeNode ℕ FreeHash FreeHash :=
  ⟨⟨0, Vector.replicate _ (.row 5)⟩, .null, .null, 3, 1, 0, 0⟩

/-- A row and a node with it are put. -/
theorem exists_run_oneRow : ∃ s : State ℕ ℕ FreeHash,
    Run freeHash (fun _ => none) [.put (.node oneRow), .put (.row 5)] s ∧ s.rowFile = [5] ∧
      s.hashIndexFile = [.null, freeHash.hash (.node oneRow)] := by
  let s₁ : State ℕ ℕ FreeHash :=
    { emptyStore with
      rowFile := [5], rowHashCache := insert emptyStore.rowHashCache (freeHash.hash (.row 5)) 0 }
  have hput₁ : put freeHash emptyStore (freeHash.hash (.row 5)) (.row 5) (Vector.replicate _ 0) =
    some s₁ := rfl
  have hrun₁ : Run freeHash (fun _ => none) [.put (.row 5)] s₁ :=
    .put (.opened opened_emptyStore) trivial (by decide) (by decide) hput₁
  have hknown : ∀ j < oneRow.numValues, ∀ h ∈ oneRow.values[j]?,
      RowKnown freeHash [.put (.row 5)] h := by
    intro j hj h hh
    obtain rfl : j = 0 := Nat.lt_one_iff.1 hj
    exact .inl ⟨5, .head _, (Option.some.inj hh).symm⟩
  have hput₂ : put freeHash s₁ (freeHash.hash (.node oneRow)) (.node oneRow)
    (Vector.replicate _ 0) = some _ := rfl
  have hadmissible : Admissible freeHash [.put (.row 5)] (.node oneRow) :=
    ⟨le_rfl, hknown, .inl rfl, .inl rfl⟩
  exact ⟨_, Run.put hrun₁ hadmissible (by decide) (by decide) hput₂, rfl, rfl⟩

theorem lossless_oneRow : ∀ b, .put b ∈ [Op.put (.node oneRow), .put (.row 5)] →
    Lossless (fun _ => none) b := by
  intro b hb
  rcases List.mem_cons.1 hb with hb | hb
  · obtain rfl := Op.put.inj hb
    exact rfl
  · obtain rfl := Op.put.inj (List.mem_singleton.1 hb)
    trivial

theorem get_put_oneRow : ∃ s s' : State ℕ ℕ FreeHash,
    Run freeHash (fun _ => none) [.put (.node oneRow), .put (.row 5)] s ∧
      get freeHash (fun _ => none) s (freeHash.hash (.node oneRow)) (Vector.replicate _ .null) =
        some (s', some (.node oneRow)) := by
  obtain ⟨s, hrun, -⟩ := exists_run_oneRow
  obtain ⟨s', hget⟩ :=
    (get_put hrun lossless_oneRow).2.2 (.node oneRow) (Vector.replicate _ .null) (.head _)
  exact ⟨s, s', hrun, hget⟩

/-- The value of the node that was put is not the one that is got. -/
theorem get_put_noRow : ∃ s : State ℕ ℕ FreeHash,
    Run freeHash (fun _ => none) [.put (.node noRow)] s ∧
      ((get freeHash (fun _ => none) s (freeHash.hash (.node noRow)) (Vector.replicate _ .null)).map
        fun r =>
        r.2.map freeHash.hash) = some (some (.node .null .null .null 3 0 1 0 0)) ∧
      freeHash.hash (.node noRow) = .node .null .null (.row 5) 3 0 1 0 0 := by
  have hput : put freeHash emptyStore (freeHash.hash (.node noRow)) (.node noRow)
    (Vector.replicate _ 0) = some _ := rfl
  have hknown : ∀ j < noRow.numValues, ∀ h ∈ noRow.values[j]?, RowKnown freeHash [] h :=
    fun j hj => absurd hj (Nat.not_lt_zero j)
  exact ⟨_, .put (.opened opened_emptyStore) ⟨Nat.zero_le _, hknown, .inl rfl, .inl rfl⟩ (by decide)
    (by decide) hput, rfl, rfl⟩

end Pequin.DbStore
