import Pequin.Lib.Chain
import Pequin.Merkle.Gadgets

/-!
# The hash function

The hash of a bit string is computed twice: by constraints that the generator writes, and by the
prover's storage. Both compress a block of at most `M` bits with a matrix, keep `Q_BITS` bits of
each row's sum, and chain the blocks. The two differ in the order of the bits: the storage lists
them from the low end, a circuit from the high end.

The tables, the matrix and the first chaining value, are the same in both and are parameters here.
-/

namespace Pequin.Merkle
open Generator TwosComplement Chain

/-- The matrix `AMat` and the bytes `GGHIV`. -/
structure Tables where
  aMat : ℕ → ℕ → ℕ
  iv : ℕ → ℕ

/-- The number `N` of rows. -/
def numRows : ℕ := 64

/-- The modulus `Q = 2^19` has `Q_BITS` bits. -/
def qBits : ℕ := 19

def numColumns : ℕ := 7296

def outputBits : ℕ := numRows * qBits

/-- The number of bits of a block before those of the input: the chaining value, and in the first
block the length. -/
def headBits (firstBlock : Bool) : ℕ := if firstBlock then outputBits + 64 else outputBits

theorem headBits_lt (firstBlock : Bool) : headBits firstBlock < numColumns := by
  cases firstBlock <;> decide

namespace Tables
variable (T : Tables)

/-- The matrix entries are residues modulo `Q`. -/
def Valid : Prop := ∀ i j, T.aMat i j < 2 ^ qBits

/-! ## The storage's hash -/

def copyIVBits : List Bool :=
  (List.range (outputBits / 8)).flatMap fun i => (List.range 8).map fun j => (T.iv i).testBit j

def copyLengthBits (length : ℕ) : List Bool := (List.range 64).map fun i => length.testBit i

/-- A row's sum in a `uint32_t`. -/
def rowSum (i : ℕ) (input : List Bool) : ℕ :=
  input.zipIdx.foldl (fun rowSum b => if b.1 then (rowSum + T.aMat i b.2) % 2 ^ 32 else rowSum) 0

def hashBlock (input : List Bool) : List Bool :=
  (List.range numRows).flatMap fun i => (List.range qBits).map fun j =>
    (T.rowSum i input % 2 ^ qBits).testBit j

/-- The number of bits that are copied to a block, when `left` bits are left and `blockCopied` bits
of the block are filled. It is held in an `int`. -/
def numInputBits (left blockCopied : ℕ) : ℕ :=
  let numInputBits : ℤ := Int.bmod left (2 ^ 32)
  let spaceLeft : ℤ := numColumns - blockCopied
  (if numInputBits > spaceLeft then spaceLeft else numInputBits).toNat

theorem numInputBits_of_bmod {left blockCopied k : ℕ} (hk : Int.bmod left (2 ^ 32) = k)
    (h : blockCopied ≤ numColumns) :
    numInputBits left blockCopied = min k (numColumns - blockCopied) := by
  have hle : (blockCopied : ℤ) ≤ numColumns := by exact_mod_cast h
  unfold numInputBits
  rw [hk]
  dsimp only
  split <;> omega

theorem numInputBits_zero {blockCopied : ℕ} (h : blockCopied ≤ numColumns) :
    numInputBits 0 blockCopied = 0 := by
  rw [numInputBits_of_bmod (k := 0) Int.zero_bmod h, Nat.zero_min]

/-- Fewer than `2^31` bits fit the `int`. -/
theorem numInputBits_of_lt {left blockCopied : ℕ} (hleft : left < 2 ^ 31)
    (h : blockCopied ≤ numColumns) :
    numInputBits left blockCopied = min left (numColumns - blockCopied) := by
  refine numInputBits_of_bmod (Int.bmod_eq_of_le ?_ ?_) h <;> push_cast <;> omega

def hashLoop (input : List Bool) (firstBlock : Bool) (blockBits resultBits : List Bool)
    (inputCopied : ℕ) : List Bool :=
  let blockBits := overwrite blockBits 0 resultBits
  let blockBits :=
    if firstBlock then overwrite blockBits outputBits (copyLengthBits input.length) else blockBits
  let blockCopied := headBits firstBlock
  let numInputBits := numInputBits (input.length - inputCopied) blockCopied
  let blockBits := overwrite blockBits blockCopied ((input.drop inputCopied).take numInputBits)
  if _h : blockCopied + numInputBits < numColumns then
    let blockBits := overwrite blockBits (blockCopied + numInputBits) [true]
    T.hashBlock (blockBits.take (blockCopied + numInputBits + 1))
  else
    hashLoop input false blockBits (T.hashBlock (blockBits.take (blockCopied + numInputBits)))
      (inputCopied + numInputBits)
termination_by input.length - inputCopied
decreasing_by
  have hhead := headBits_lt firstBlock
  have hfull : ¬ headBits firstBlock + Tables.numInputBits (input.length - inputCopied)
    (headBits firstBlock) < numColumns := _h
  rcases Nat.eq_zero_or_pos (input.length - inputCopied) with hleft | hleft
  · have hzero := numInputBits_zero hhead.le
    rw [← hleft] at hzero
    omega
  · omega

def hash (input : List Bool) : List Bool :=
  T.hashLoop input true (List.replicate numColumns false) T.copyIVBits 0

/-- The hash of an inner node. -/
def hashPair (left right : List Bool) : List Bool := T.hash (left ++ right)

/-! ## The circuit's hash -/

def bitToVar (v i : ℕ) : Var := if v.testBit i then one else zero

def makeIVBits : List Var :=
  (List.range (outputBits / 8)).flatMap fun b => (List.range 8).map fun i => bitToVar (T.iv b) i

def lengthVars (length : ℕ) : List Var := (List.range 64).map fun i => bitToVar length i

/-- `⌈log₂ n⌉ + Q_BITS` for a block of `n` bits. -/
def maxRowBits (n : ℕ) : ℕ := Nat.clog 2 n + qBits

/-- The last rows come first. -/
def hashBlockVars (input : List Var) : Gen (List Var) := do
  let v ← matrixVectorMul (fun i j => T.aMat i j) input numRows
  let rows ← Gen.each (fun vi => modBits vi (maxRowBits input.length) qBits) v
  pure rows.reverse.flatten

/-- The loop of `hashBits`, after the bits of the blocks before were put in order. -/
def hashLoopVars (length : ℕ) (firstBlock : Bool) (blockBits resultBits input : List Var) :
    Gen (List Var) :=
  let resultBits := if firstBlock then resultBits else resultBits.reverse
  let blockBits := overwrite blockBits 0 resultBits
  let blockBits := if firstBlock then overwrite blockBits outputBits
    (lengthVars length) else blockBits
  let filled := headBits firstBlock
  let numInputBits := min input.length (numColumns - filled)
  let blockBits := overwrite blockBits filled (input.take numInputBits)
  let filled := filled + numInputBits
  if _h : 0 < numColumns - filled then
    let blockBits := overwrite blockBits filled [one]
    T.hashBlockVars (blockBits.take (filled + 1))
  else do
    let resultBits ← T.hashBlockVars (blockBits.take filled)
    hashLoopVars length false blockBits resultBits (input.drop numInputBits)
termination_by input.length
decreasing_by
  have hhead := headBits_lt firstBlock
  rw [List.length_drop]
  omega

/-- `hashBits` and `HashValueBits`. The buffer's first contents are never read. -/
def hashBits (input : List Var) : Gen (List Var) :=
  T.hashLoopVars input.length true (List.replicate numColumns zero) T.makeIVBits input

def hashChildren (left right : List Var) : Gen (List Var) := T.hashBits (right ++ left).reverse

/-! ## The storage's loop -/

@[simp] theorem length_hashBlock (input : List Bool) : (T.hashBlock input).length = outputBits := by
  simp [hashBlock, List.length_flatMap, outputBits]

@[simp] theorem length_copyIVBits : T.copyIVBits.length = outputBits := by
  simp only [copyIVBits, List.length_flatMap, List.length_map, List.length_range, List.map_const',
    List.sum_replicate]
  decide

@[simp] theorem length_copyLengthBits (length : ℕ) : (copyLengthBits length).length = 64 := by
  simp [copyLengthBits]

def boolFormat : Format Bool where
  compress := T.hashBlock
  stop := true
  space := numColumns - outputBits
  space_pos := by decide

def room (firstBlock : Bool) : ℕ := numColumns - headBits firstBlock

theorem room_pos (firstBlock : Bool) : 0 < room firstBlock := by cases firstBlock <;> decide

def head {α : Type} (firstBlock : Bool) (resultBits lengthBits : List α) : List α :=
  if firstBlock then resultBits ++ lengthBits else resultBits

variable {firstBlock : Bool}

theorem length_head {α : Type} {resultBits lengthBits : List α}
    (hres : resultBits.length = outputBits) (hlen : lengthBits.length = 64) :
    (head firstBlock resultBits lengthBits).length = headBits firstBlock := by
  cases firstBlock <;> simp [head, headBits, hres, hlen]

/-- The buffer of a block with room for `k` more bits of input, and what it starts with. -/
theorem prefix_head {α : Type} {buf resultBits lengthBits : List α}
    (hres : resultBits.length = outputBits) :
    head firstBlock resultBits lengthBits <+: (if firstBlock then
      overwrite (overwrite buf 0 resultBits) outputBits lengthBits else overwrite buf 0
        resultBits) := by
  have hzero := prefix_overwrite_zero buf resultBits
  cases firstBlock with
  | false => exact hzero
  | true =>
    have h := prefix_overwrite hzero lengthBits
    rw [hres] at h
    exact h

/-- One iteration of the storage's loop, without the buffer. -/
theorem hashLoop_eq {input res : List Bool} (buf : List Bool) (firstBlock : Bool) (inputCopied : ℕ)
    (hlen : input.length < 2 ^ 31) (hres : res.length = outputBits) :
    ∃ buf', T.hashLoop input firstBlock buf res inputCopied =
      let pre := head firstBlock res (copyLengthBits input.length)
      let left := input.drop inputCopied
      if left.length < room firstBlock then T.hashBlock (pre ++ left ++ [true])
      else T.hashLoop input false buf' (T.hashBlock (pre ++ left.take (room firstBlock)))
        (inputCopied + room firstBlock) := by
  set pre := head firstBlock res (copyLengthBits input.length) with hpre
  set left := input.drop inputCopied with hleft
  have hprelen : pre.length = headBits firstBlock := length_head hres (length_copyLengthBits _)
  have hhead := headBits_lt firstBlock
  have hleftlen : input.length - inputCopied = left.length := by rw [hleft, List.length_drop]
  have hbits : numInputBits (input.length - inputCopied) (headBits firstBlock) =
      min left.length (room firstBlock) := by
    rw [numInputBits_of_lt (by omega) hhead.le, hleftlen, room]
  set buf₁ := if firstBlock then overwrite (overwrite buf 0 res) outputBits
    (copyLengthBits input.length) else overwrite buf 0 res with hbuf₁
  have hprefix : pre <+: buf₁ := prefix_head hres
  set buf₂ := overwrite buf₁ (headBits firstBlock) (left.take (min left.length (room firstBlock)))
    with hbuf₂
  refine ⟨buf₂, ?_⟩
  conv_lhs => unfold hashLoop
  simp only [hbits, ← hbuf₁, ← hleft, ← hbuf₂]
  by_cases hlt : left.length < room firstBlock
  · have hmin : min left.length (room firstBlock) = left.length := Nat.min_eq_left hlt.le
    rw [if_pos hlt, dif_pos (by rw [hmin]; unfold room at hlt; omega), hmin]
    exact congrArg T.hashBlock (take_lastBlock hprefix hprelen hlt true)
  · have hmin : min left.length (room firstBlock) = room firstBlock := Nat.min_eq_right (by omega)
    rw [if_neg hlt, dif_neg (by rw [hmin]; unfold room; omega), hmin, hbuf₂,
      hmin, take_fullBlock hprefix hprelen (by omega)]

variable {input : List Bool}

/-- The storage's hash absorbs its input in blocks. -/
theorem hash_eq_absorb (hlen : input.length < 2 ^ 31) : T.hash input =
    T.boolFormat.absorb (T.copyIVBits ++ copyLengthBits input.length) (room true) (room_pos true)
      input := by
  suffices h : ∀ (k : ℕ) (firstBlock : Bool) (buf res : List Bool) (inputCopied : ℕ),
      input.length - inputCopied < k → res.length = outputBits →
      T.hashLoop input firstBlock buf res inputCopied = T.boolFormat.absorb
        (head firstBlock res (copyLengthBits input.length)) (room firstBlock) (room_pos firstBlock)
        (input.drop inputCopied) from
    h (input.length + 1) true _ _ 0 (by omega) T.length_copyIVBits
  intro k
  induction k with
  | zero => exact fun _ _ _ _ h => absurd h (Nat.not_lt_zero _)
  | succ k ih =>
    intro firstBlock buf res inputCopied hk hres
    obtain ⟨buf', heq⟩ := T.hashLoop_eq buf firstBlock inputCopied hlen hres
    have hroom := room_pos firstBlock
    rw [heq]
    by_cases hlt : (input.drop inputCopied).length < room firstBlock
    · rw [Format.absorb_of_lt _ hlt]
      exact if_pos hlt
    · rw [Format.absorb_of_le _ (Nat.not_lt.1 hlt), List.drop_drop]
      rw [List.length_drop] at hlt
      exact (if_neg (by rw [List.length_drop]; exact hlt)).trans
        (ih false _ _ _ (by omega) (T.length_hashBlock _))

/-! ## Sums of rows -/

def ints (bs : List Bool) : List ℤ := bs.map Bool.toInt

@[simp] theorem length_ints (bs : List Bool) : (ints bs).length = bs.length := by simp [ints]

theorem bits_ints (bs : List Bool) : Bits (ints bs) := by
  intro b hb
  obtain ⟨c, -, rfl⟩ := List.mem_map.1 hb
  exact isBit_toInt c

def row (i j : ℕ) : ℤ := T.aMat i j

variable {T} {xs : List ℤ}

private theorem dot_from_bounds (hT : T.Valid) (i : ℕ) (hxs : ∀ x ∈ xs, 0 ≤ x) (k : ℕ) :
    0 ≤ ((xs.zipIdx k).map fun x => T.row i x.2 * x.1).sum ∧
      ((xs.zipIdx k).map fun x => T.row i x.2 * x.1).sum ≤ (2 ^ qBits - 1) * xs.sum := by
  induction xs generalizing k with
  | nil => simp
  | cons x xs ih =>
    obtain ⟨hx, hxs⟩ := List.forall_mem_cons.1 hxs
    obtain ⟨h0, h1⟩ := ih hxs (k + 1)
    have hrow : 0 ≤ T.row i k ∧ T.row i k ≤ 2 ^ qBits - 1 := by
      have h := hT i k
      have hz : T.row i k < 2 ^ qBits := by
        unfold row
        exact_mod_cast h
      exact ⟨Int.natCast_nonneg _, by omega⟩
    simp only [List.zipIdx_cons, List.map_cons, List.sum_cons]
    constructor
    · have := mul_nonneg hrow.1 hx
      linarith
    · have := mul_le_mul_of_nonneg_right hrow.2 hx
      linarith

/-- A sum of nonnegative numbers is bounded by its weights. -/
theorem dot_bounds (hT : T.Valid) (i : ℕ) (hxs : ∀ x ∈ xs, 0 ≤ x) :
    0 ≤ dot (T.row i) xs ∧ dot (T.row i) xs ≤ (2 ^ qBits - 1) * xs.sum :=
  dot_from_bounds hT i hxs 0

/-- The values of a block are so small that the bits of a row are enough for each row's sum. -/
structure Light (xs : List ℤ) : Prop where
  nonneg : ∀ x ∈ xs, 0 ≤ x
  sum_le : xs.sum ≤ 2 ^ Nat.clog 2 xs.length

theorem light_of_bits (h : Bits xs) : Light xs := by
  refine ⟨h.nonneg, h.sum_le.trans ?_⟩
  exact_mod_cast Nat.le_pow_clog one_lt_two xs.length

theorem Light.dot_lt (hT : T.Valid) (h : Light xs) (i : ℕ) :
    dot (T.row i) xs < 2 ^ maxRowBits xs.length := by
  obtain ⟨-, hle⟩ := dot_bounds hT i h.nonneg
  have hq : (0 : ℤ) ≤ 2 ^ qBits - 1 := by decide
  have hpos : (0 : ℤ) < 2 ^ Nat.clog 2 xs.length := by positivity
  calc dot (T.row i) xs ≤ (2 ^ qBits - 1) * xs.sum := hle
    _ ≤ (2 ^ qBits - 1) * 2 ^ Nat.clog 2 xs.length := mul_le_mul_of_nonneg_left h.sum_le hq
    _ < 2 ^ Nat.clog 2 xs.length * 2 ^ qBits := by linarith
    _ = 2 ^ maxRowBits xs.length := (pow_add 2 _ _).symm

variable {n : ℕ}

/-- A row of a whole block has at most 32 bits. -/
theorem maxRowBits_le (hn : n ≤ numColumns) : maxRowBits n ≤ 32 := by
  have hclog : Nat.clog 2 n ≤ 13 := Nat.clog_le_of_le_pow (hn.trans (by decide))
  unfold maxRowBits qBits
  omega

/-- The accumulator of a row never wraps. -/
private theorem foldl_rowSum (hT : T.Valid) (i : ℕ) (input : List Bool) (k acc : ℕ)
    (hacc : acc + input.length * (2 ^ qBits - 1) < 2 ^ 32) :
    (((input.zipIdx k).foldl (fun rowSum b =>
      if b.1 then (rowSum + T.aMat i b.2) % 2 ^ 32 else rowSum) acc : ℕ) : ℤ) =
        acc + (((ints input).zipIdx k).map fun x => T.row i x.2 * x.1).sum := by
  induction input generalizing k acc with
  | nil => simp [ints]
  | cons b input ih =>
    have hentry := hT i k
    rw [List.length_cons, Nat.add_mul, Nat.one_mul] at hacc
    simp only [ints, List.map_cons, List.zipIdx_cons, List.foldl_cons, List.sum_cons]
    cases b with
    | false =>
      rw [if_neg Bool.false_ne_true, ih (k + 1) acc (by omega)]
      simp [ints]
    | true =>
      rw [if_pos rfl, Nat.mod_eq_of_lt (by omega), ih (k + 1) _ (by omega)]
      simp only [ints, row, Bool.toInt_true, mul_one]
      push_cast
      ring

theorem rowSum_eq (hT : T.Valid) (i : ℕ) (hlen : input.length ≤ numColumns) :
    (T.rowSum i input : ℤ) = dot (T.row i) (ints input) := by
  have hbound : 0 + input.length * (2 ^ qBits - 1) < 2 ^ 32 := by
    have := Nat.mul_le_mul_right (2 ^ qBits - 1) hlen
    have hmax : numColumns * (2 ^ qBits - 1) < 2 ^ 32 := by decide
    omega
  rw [rowSum, foldl_rowSum hT i input 0 0 hbound, Nat.cast_zero, zero_add, dot]

/-! ## Compression -/

/-- The compression function on integers. -/
def compress (T : Tables) (xs : List ℤ) : List ℤ :=
  (List.range numRows).flatMap fun i => bitsOf qBits (dot (T.row i) xs)

@[simp] theorem length_compress (xs : List ℤ) : (T.compress xs).length = outputBits := by
  simp [compress, List.length_flatMap, outputBits]

theorem bits_compress (xs : List ℤ) : Bits (T.compress xs) := by
  intro b hb
  obtain ⟨i, -, hi⟩ := List.mem_flatMap.1 hb
  exact bits_bitsOf _ _ b hi

private theorem map_testBit (k v : ℕ) :
    ((List.range k).map fun j => (v % 2 ^ k).testBit j).map Bool.toInt = bitsOf k v := by
  rw [← ofWord_ofInt, ofWord, List.map_map]
  refine List.map_congr_left fun j hj => ?_
  have hj := List.mem_range.1 hj
  rw [Function.comp_apply, BitVec.ofInt_natCast, BitVec.getLsbD_ofNat, Nat.testBit_mod_two_pow]

/-- On bits it is the storage's. -/
theorem compress_ints (hT : T.Valid) (hlen : input.length ≤ numColumns) :
    T.compress (ints input) = ints (T.hashBlock input) := by
  unfold compress hashBlock
  conv_rhs => rw [ints, List.map_flatMap]
  refine List.flatMap_congr fun i _ => ?_
  rw [map_testBit, ← rowSum_eq hT i hlen]

def intFormat (T : Tables) : Format ℤ where
  compress := T.compress
  stop := 1
  space := numColumns - outputBits
  space_pos := by decide

theorem absorb_ints (hT : T.Valid) {pre input : List Bool} {room : ℕ} (hroom : 0 < room)
    (hpre : pre.length + room ≤ numColumns) :
    T.intFormat.absorb (ints pre) room hroom (ints input) =
      ints (T.boolFormat.absorb pre room hroom input) :=
  Format.absorb_map (F := T.boolFormat) (G := T.intFormat) rfl rfl
    (fun _ hl => compress_ints hT hl) (fun l => (by
      show (T.hashBlock l).length + (numColumns - outputBits) ≤ numColumns
      rw [length_hashBlock]
      decide)) pre room hroom input hpre

/-! ## The circuit of a block -/

variable {R : Type} {z : Var → R}

private theorem holds_flatten [CommRing R] {ds : List ℤ} {rows : List (List Var)}
    (h : List.Forall₂ (fun d xi => Holds z xi (bitsOf qBits d).reverse) ds rows) :
    Holds z rows.reverse.flatten (ds.flatMap (bitsOf qBits)).reverse := by
  induction h with
  | nil => exact holds_nil
  | cons hd _ ih =>
    rw [List.reverse_cons, List.flatten_append, List.flatMap_cons, List.reverse_append]
    simpa using ih.append hd

section
variable {p : ℕ} [Fact p.Prime] {z : Var → ZMod p} (hT : T.Valid) (hp : 2 ^ 32 ≤ p) (hz : Base z)
include hT hp hz

theorem sound_hashBlockVars {input : List Var} {xs : List ℤ} (hin : Holds z input xs)
    (hlight : Light xs) (hlen : xs.length ≤ numColumns) :
    Sound z (T.hashBlockVars input) fun r => Holds z r (T.compress xs).reverse := by
  have hrow : 2 ^ maxRowBits input.length ≤ p :=
    (Nat.pow_le_pow_right two_pos (maxRowBits_le (hin.length_eq ▸ hlen))).trans hp
  have hq : qBits ≤ maxRowBits input.length := Nat.le_add_left _ _
  refine .bind (sound_matrixVectorMul hz _ hin numRows) fun v hv => ?_
  refine .bind (Sound.each (P := fun vi xi => ∀ d : ℤ, 0 ≤ d → d < 2 ^ maxRowBits input.length →
    z vi = d → Holds z xi (bitsOf qBits d).reverse) v fun vi _ n hn d h0 h1 hd =>
      sound_modBits hz hrow h0 h1 hq hd n hn) fun rows hrows => .pure ?_
  have hdots : List.Forall₂ (fun d xi => Holds z xi (bitsOf qBits d).reverse)
      ((List.range numRows).map fun i => dot (T.row i) xs) rows := by
    have hrange : ∀ d ∈ (List.range numRows).map fun i => dot (T.row i) xs,
        0 ≤ d ∧ d < 2 ^ maxRowBits input.length := by
      intro d hd
      obtain ⟨i, -, rfl⟩ := List.mem_map.1 hd
      exact ⟨(dot_bounds hT i hlight.nonneg).1, hin.length_eq ▸ hlight.dot_lt hT i⟩
    have hv' : Holds z v ((List.range numRows).map fun i => dot (T.row i) xs) := hv
    generalize (List.range numRows).map (fun i => dot (T.row i) xs) = ds at hrange hv'
    clear hv
    induction hrows generalizing ds with
    | nil =>
      cases ds with
      | nil => exact .nil
      | cons d ds => cases hv'
    | cons hx _ ih =>
      cases ds with
      | nil => cases hv'
      | cons d ds =>
        obtain ⟨hd, hv'⟩ := holds_cons.1 hv'
        obtain ⟨hdr, hrange⟩ := List.forall_mem_cons.1 hrange
        exact .cons (hx d hdr.1 hdr.2 hd) (ih ds hrange hv')
  have hflat := holds_flatten hdots
  rw [List.flatMap_map] at hflat
  exact hflat

end

/-- The prover fills a block's circuit with the bits of the compression function. -/
theorem runs_hashBlockVars (hT : T.Valid) {env : Env} (henv : env.aMat = T.row) {s : Var → ℤ}
    (hs : Base s) (hn : 2 ≤ n) {input : List Var} (hin : ∀ x ∈ input, x.Below n)
    (hlight : Light (input.map s)) : Runs (machine env) (T.hashBlockVars input) n s fun r m s' =>
      (∀ w ∈ r, w.Below m) ∧ r.map s' = (T.compress (input.map s)).reverse := by
  have hmat : T.hashBlockVars input = (do
      let v ← matrixVectorMul env.aMat input numRows
      let rows ← Gen.each (fun vi => modBits vi (maxRowBits input.length) qBits) v
      pure rows.reverse.flatten) := by
    rw [henv]
    rfl
  have hq : qBits ≤ maxRowBits input.length := Nat.le_add_left _ _
  rw [hmat]
  refine .bind (runs_matrixVectorMul env hs hn hin) fun v m s' hm hs' ⟨hvb, hv⟩ => ?_
  refine .bind (Runs.each id (φ := fun vi => (bitsOf qBits (s' vi)).reverse) v
    fun vi hvi m' s'' hm' hs'' => ?_) fun rows m' s'' _ _ ⟨hrb, hrows⟩ => .pure ⟨?_, ?_⟩
  · have hval : s'' vi = s' vi := hs'' vi (hvb vi hvi)
    obtain ⟨i, -, hi⟩ := List.mem_map.1 (hv ▸ List.mem_map_of_mem hvi : s' vi ∈ _)
    have hdot : dot (T.row i) (input.map s) = s' vi := by rw [← henv]; exact hi
    have h0 := (dot_bounds hT i hlight.nonneg).1
    have h1 := hlight.dot_lt hT i
    rw [List.length_map] at h1
    have hrun := runs_modBits env ((hs.of_agree hn hs').of_agree (hn.trans hm) hs'')
      ((hn.trans hm).trans hm') ((hvb vi hvi).mono hm') (by omega) (by omega) hq
    rw [hval] at hrun
    exact hrun
  · intro w hw
    obtain ⟨r, hr, hw⟩ := List.mem_flatten.1 hw
    exact hrb r (List.mem_reverse.1 hr) w hw
  · have hcompress : T.compress (input.map s) = ((v.map s').map (bitsOf qBits)).flatten := by
      rw [hv, henv, List.map_map, ← List.flatMap_def]
      rfl
    rw [hcompress, List.reverse_flatten, List.map_map, List.map_map, List.map_flatten,
      List.map_reverse]
    congr 2

/-! ## The circuit's loop -/

@[simp] theorem length_lengthVars (length : ℕ) : (lengthVars length).length = 64 := by
  simp [lengthVars]

@[simp] theorem length_makeIVBits : T.makeIVBits.length = outputBits := by
  simp only [makeIVBits, List.length_flatMap, List.length_map, List.length_range, List.map_const',
    List.sum_replicate]
  decide

/-- The chaining value in the order of the block. -/
def inOrder {α : Type} (firstBlock : Bool) (resultBits : List α) : List α :=
  if firstBlock then resultBits else resultBits.reverse

theorem length_inOrder {α : Type} (firstBlock : Bool) (resultBits : List α) :
    (inOrder firstBlock resultBits).length = resultBits.length := by
  cases firstBlock <;> simp [inOrder]

/-- One iteration of the circuit's loop, without the buffer. -/
theorem hashLoopVars_eq (T : Tables) (length : ℕ) (firstBlock : Bool) (buf : List Var)
    {res : List Var} (hres : res.length = outputBits) (input : List Var) :
    ∃ buf', T.hashLoopVars length firstBlock buf res input =
      let pre := head firstBlock (inOrder firstBlock res) (lengthVars length)
      if input.length < room firstBlock then T.hashBlockVars (pre ++ input ++ [one])
      else T.hashBlockVars (pre ++ input.take (room firstBlock)) >>= fun res =>
        T.hashLoopVars length false buf' res (input.drop (room firstBlock)) := by
  have hres' : (inOrder firstBlock res).length = outputBits := by rw [length_inOrder, hres]
  set pre := head firstBlock (inOrder firstBlock res) (lengthVars length) with hpre
  have hprelen : pre.length = headBits firstBlock := length_head hres' (length_lengthVars _)
  have hhead := headBits_lt firstBlock
  set buf₁ := if firstBlock then overwrite (overwrite buf 0 (inOrder firstBlock res)) outputBits
    (lengthVars length) else overwrite buf 0 (inOrder firstBlock res) with hbuf₁
  have hprefix : pre <+: buf₁ := prefix_head hres'
  set buf₂ := overwrite buf₁ (headBits firstBlock) (input.take (min input.length (room firstBlock)))
    with hbuf₂
  refine ⟨buf₂, ?_⟩
  have hord : (if firstBlock then res else res.reverse) = inOrder firstBlock res := rfl
  have hroom : numColumns - headBits firstBlock = room firstBlock := rfl
  conv_lhs => unfold hashLoopVars
  simp only [hord, hroom, ← hbuf₁, ← hbuf₂]
  by_cases hlt : input.length < room firstBlock
  · have hmin : min input.length (room firstBlock) = input.length := Nat.min_eq_left hlt.le
    rw [if_pos hlt, dif_pos (by rw [hmin]; unfold room at hlt; omega), hmin]
    exact congrArg T.hashBlockVars (take_lastBlock hprefix hprelen hlt one)
  · have hmin : min input.length (room firstBlock) = room firstBlock := Nat.min_eq_right (by omega)
    rw [if_neg hlt, dif_neg (by rw [hmin]; unfold room; omega), hmin, hbuf₂,
      hmin, take_fullBlock hprefix hprelen (by omega)]

theorem holds_bitToVar [CommRing R] (hz : Base z) (l : List (ℕ × ℕ)) :
    Holds z (l.map fun b => bitToVar b.1 b.2) (ints (l.map fun b => b.1.testBit b.2)) := by
  unfold Holds ints
  rw [List.map_map, List.map_map, List.map_map]
  refine List.map_congr_left fun b _ => ?_
  simp only [Function.comp_apply, bitToVar]
  cases b.1.testBit b.2 with
  | false => simpa using hz.zero
  | true => simpa using hz.one

theorem below_bitToVar {n v i : ℕ} (hn : 2 ≤ n) : (bitToVar v i).Below n := by
  unfold bitToVar
  split
  · exact Generator.Wire.below_fresh.2 (by omega)
  · exact Generator.Wire.below_fresh.2 (by omega)

theorem holds_lengthVars [CommRing R] (hz : Base z) (length : ℕ) :
    Holds z (lengthVars length) (ints (copyLengthBits length)) := by
  have h := holds_bitToVar hz ((List.range 64).map fun i => (length, i))
  rwa [List.map_map, List.map_map] at h

theorem holds_makeIVBits [CommRing R] (hz : Base z) : Holds z T.makeIVBits (ints T.copyIVBits) := by
  have h := holds_bitToVar hz
    ((List.range (outputBits / 8)).flatMap fun b => (List.range 8).map fun i => (T.iv b, i))
  simpa [makeIVBits, copyIVBits, List.map_flatMap, Function.comp_def] using h

theorem below_makeIVBits (hn : 2 ≤ n) : ∀ x ∈ T.makeIVBits, x.Below n := by
  intro x hx
  obtain ⟨b, -, hx⟩ := List.mem_flatMap.1 hx
  obtain ⟨i, -, rfl⟩ := List.mem_map.1 hx
  exact below_bitToVar hn

/-- Every block of the input is light: the first one is, and the values after it are bits. -/
structure LightInput (pre : List ℤ) (room : ℕ) (xs : List ℤ) : Prop where
  last : xs.length < room → Light (pre ++ xs ++ [1])
  first : room ≤ xs.length → Light (pre ++ xs.take room)
  rest : Bits (xs.drop room)

theorem lightInput_of_bits {pre xs : List ℤ} (hpre : Bits pre) (hxs : Bits xs) (room : ℕ) :
    LightInput pre room xs := by
  refine ⟨fun _ => light_of_bits ?_, fun _ => light_of_bits ?_, hxs.drop room⟩
  · refine Bits.append.2 ⟨Bits.append.2 ⟨hpre, hxs⟩, ?_⟩
    simp [Bits, IsBit]
  · exact Bits.append.2 ⟨hpre, hxs.take room⟩

theorem Holds.head [CommRing R] (hz : Base z) {res : List Var} {cv : List ℤ}
    (hres : Holds z (inOrder firstBlock res) cv) (length : ℕ) :
    Holds z (head firstBlock (inOrder firstBlock res) (lengthVars length))
      (head firstBlock cv (ints (copyLengthBits length))) := by
  cases firstBlock with
  | false => exact hres
  | true => exact hres.append (holds_lengthVars hz length)

/-- What the circuit's loop evaluates to. -/
def absorbFrom (T : Tables) (length : ℕ) (firstBlock : Bool) (cv xs : List ℤ) : List ℤ :=
  T.intFormat.absorb (head firstBlock cv (ints (copyLengthBits length))) (room firstBlock)
    (room_pos firstBlock) xs

variable {cv xs : List ℤ}

theorem absorbFrom_of_lt {length : ℕ} (h : xs.length < room firstBlock) :
    T.absorbFrom length firstBlock cv xs =
      T.compress (head firstBlock cv (ints (copyLengthBits length)) ++ xs ++ [1]) :=
  Format.absorb_of_lt _ h

theorem absorbFrom_of_le {length : ℕ} (h : room firstBlock ≤ xs.length) :
    T.absorbFrom length firstBlock cv xs =
      T.absorbFrom length false (T.compress (head firstBlock cv (ints (copyLengthBits length)) ++
        xs.take (room firstBlock))) (xs.drop (room firstBlock)) :=
  Format.absorb_of_le _ h

theorem sound_hashLoopVars {p : ℕ} [Fact p.Prime] {z : Var → ZMod p} (hT : T.Valid)
    (hp : 2 ^ 32 ≤ p) (hz : Base z) (length : ℕ) {buf res input : List Var}
    (hcv : cv.length = outputBits) (hres : Holds z (inOrder firstBlock res) cv)
    (hin : Holds z input xs)
    (hlight : LightInput (head firstBlock cv (ints (copyLengthBits length))) (room firstBlock) xs) :
    Sound z (T.hashLoopVars length firstBlock buf res input) fun r =>
      Holds z r (T.absorbFrom length firstBlock cv xs).reverse := by
  induction hk : input.length using Nat.strong_induction_on
    generalizing firstBlock buf res input cv xs with
  | _ k ih =>
    have hreslen : res.length = outputBits := by
      rw [← length_inOrder firstBlock, hres.length_eq, hcv]
    have hheadlen : (head firstBlock cv (ints (copyLengthBits length))).length =
      headBits firstBlock :=
      length_head hcv (by rw [length_ints, length_copyLengthBits])
    have hhead := headBits_lt firstBlock
    obtain ⟨buf', heq⟩ := T.hashLoopVars_eq length firstBlock buf hreslen input
    rw [heq]
    have hpre := Holds.head hz hres length
    have hxs := hin.length_eq
    by_cases hlt : input.length < room firstBlock
    · rw [absorbFrom_of_lt (hxs ▸ hlt)]
      simp only [hlt, if_true]
      refine sound_hashBlockVars hT hp hz ((hpre.append hin).append ?_) (hlight.last (hxs ▸ hlt)) ?_
      · simpa [Holds] using hz.one
      · simp only [List.length_append, hheadlen, List.length_singleton, ← hxs]
        unfold room at hlt
        omega
    · rw [absorbFrom_of_le (hxs ▸ Nat.not_lt.1 hlt)]
      simp only [hlt, if_false]
      refine .bind (sound_hashBlockVars hT hp hz (hpre.append (hin.take _))
        (hlight.first (hxs ▸ Nat.not_lt.1 hlt)) ?_) fun r hr => ?_
      · simp only [List.length_append, hheadlen, List.length_take]
        unfold room
        omega
      · have hroom := room_pos firstBlock
        refine ih _ ?_ (length_compress _) ?_ (hin.drop _)
          (lightInput_of_bits (bits_compress _) hlight.rest _) rfl
        · rw [List.length_drop]
          omega
        · simpa [inOrder] using hr.reverse

/-- The wires of a block's head are there already. -/
private theorem below_head (hn : 2 ≤ n) (firstBlock : Bool) {res : List Var}
    (hres : ∀ x ∈ res, x.Below n) (length : ℕ) :
    ∀ x ∈ head firstBlock (inOrder firstBlock res) (lengthVars length), x.Below n := by
  have hlength : ∀ x ∈ lengthVars length, x.Below n := by
    intro x hx
    obtain ⟨i, -, rfl⟩ := List.mem_map.1 hx
    exact below_bitToVar hn
  cases firstBlock with
  | false => exact fun x hx => hres x (List.mem_reverse.1 hx)
  | true =>
    intro x hx
    exact (List.mem_append.1 hx).elim (hres x) (hlength x)

theorem runs_hashLoopVars (hT : T.Valid) {env : Env} (henv : env.aMat = T.row) (length : ℕ)
    {s : Var → ℤ} (hs : Base s) (hn : 2 ≤ n) {buf res input : List Var}
    (hreslen : res.length = outputBits) (hres : ∀ x ∈ res, x.Below n) (hin : ∀ x ∈ input, x.Below n)
    (hcv : (inOrder firstBlock res).map s = cv) (hxs : input.map s = xs)
    (hlight : LightInput (head firstBlock cv (ints (copyLengthBits length))) (room firstBlock) xs) :
    Runs (machine env) (T.hashLoopVars length firstBlock buf res input) n s fun r m s' =>
      (∀ w ∈ r, w.Below m) ∧ r.map s' = (T.absorbFrom length firstBlock cv xs).reverse := by
  induction hk : input.length using Nat.strong_induction_on
    generalizing firstBlock buf res input cv xs n s with
  | _ k ih =>
    obtain ⟨buf', heq⟩ := T.hashLoopVars_eq length firstBlock buf hreslen input
    rw [heq]
    have hpreb := below_head hn firstBlock hres length
    have hpre : (head firstBlock (inOrder firstBlock res) (lengthVars length)).map s =
        head firstBlock cv (ints (copyLengthBits length)) :=
      holds_int_iff.1 (Holds.head hs (holds_int_iff.2 hcv) length)
    have hlen : input.length = xs.length := by rw [← hxs, List.length_map]
    by_cases hlt : input.length < room firstBlock
    · rw [absorbFrom_of_lt (hlen ▸ hlt)]
      simp only [hlt, if_true]
      have hblock : (head firstBlock (inOrder firstBlock res) (lengthVars length) ++ input ++
          [one]).map s = head firstBlock cv (ints (copyLengthBits length)) ++ xs ++ [1] := by
        simp [hpre, hxs, hs.one]
      rw [← hblock]
      refine runs_hashBlockVars hT henv hs hn ?_ (hblock ▸ hlight.last (hlen ▸ hlt))
      simp only [List.mem_append, List.mem_singleton]
      rintro x ((hx | hx) | rfl)
      · exact hpreb x hx
      · exact hin x hx
      · exact Generator.Wire.below_fresh.2 (by omega)
    · rw [absorbFrom_of_le (hlen ▸ Nat.not_lt.1 hlt)]
      simp only [hlt, if_false]
      have hblock : (head firstBlock (inOrder firstBlock res) (lengthVars length) ++
          input.take (room firstBlock)).map s = head firstBlock cv (ints (copyLengthBits length)) ++
            xs.take (room firstBlock) := by
        rw [List.map_append, hpre, List.map_take, hxs]
      have hbelow : ∀ x ∈ head firstBlock (inOrder firstBlock res) (lengthVars length) ++
          input.take (room firstBlock), x.Below n := by
        intro x hx
        exact (List.mem_append.1 hx).elim (hpreb x) fun hx => hin x (List.mem_of_mem_take hx)
      have hrun := runs_hashBlockVars hT henv hs hn hbelow
        (hblock ▸ hlight.first (hlen ▸ Nat.not_lt.1 hlt))
      rw [hblock] at hrun
      refine .bind hrun fun r m s' hm hs' ⟨hrb, hr⟩ => ?_
      have hroom := room_pos firstBlock
      have hdrop : ∀ x ∈ input.drop (room firstBlock), x.Below n :=
        fun x hx => hin x (List.mem_of_mem_drop hx)
      have hrlen : r.length = outputBits := by
        have h := congrArg List.length hr
        rwa [List.length_map, List.length_reverse, length_compress] at h
      refine ih _ ?_ (hs.of_agree hn hs') (hn.trans hm) hrlen hrb (fun x hx => (hdrop x hx).mono hm)
        ?_ ?_ (lightInput_of_bits (bits_compress _) hlight.rest _) rfl
      · rw [List.length_drop]
        omega
      · simp [inOrder, hr]
      · rw [hs'.map_eq hdrop, List.map_drop, hxs]

end Tables

end Pequin.Merkle
