import Pequin.Merkle.HashAgreement

/-!
# Hash functions of a tree

A generator works with any hash function that has the interface `Hasher`. There are two: the hash of
`Ggh`, and the null hash, which does not compress. A circuit lists the bits of a hash from the high
end. At the end a hash is packed into field elements of 64 bits, and two hashes are compared element
by element.

`Hasher.Spec` is what the circuits of a hash function are meant to compute. It is stated for lists
of integers, since nothing but constraints makes the variables bits.
-/

namespace Pequin.Merkle
open Generator TwosComplement Chain

def hashFieldBits : ℕ := 64

structure Hasher where
  numElts : ℕ
  hashValueBits : List Var → Gen (List Var)
  hashChildren : List Var → List Var → Gen (List Var)

def Hasher.numHashBits (h : Hasher) : ℕ := h.numElts * hashFieldBits

/-! ## Field elements -/

def eltBits {α : Type} (numElts : ℕ) (hashBits : List α) (i : ℕ) : List α :=
  (hashBits.drop ((numElts - i - 1) * hashFieldBits)).take hashFieldBits

/-- A hash in field elements, in a circuit. -/
def final (numElts : ℕ) (hashBits : List Var) : Gen (List Var) :=
  Gen.each (fun i => combine (eltBits numElts hashBits i)) (List.range numElts)

def compareTo (v1 v2 : List Var) : Gen Unit := do
  let _ ← Gen.each (fun c => assignment c.1 c.2) (v1.zip v2)
  pure ()

/-- A hash in field elements, in the storage: the first bit of each is its lowest. -/
def createHash (numElts : ℕ) (hashBits : List Bool) : List ℤ :=
  (List.range numElts).map fun i =>
    unsigned (Tables.ints ((hashBits.drop (i * hashFieldBits)).take hashFieldBits))

/-- The field elements of a list of bits, as a circuit computes them. -/
def pack (numElts : ℕ) (bs : List ℤ) : List ℤ :=
  (List.range numElts).map fun i => unsigned (eltBits numElts bs i).reverse

section
variable {numElts : ℕ} {bs : List ℤ}

theorem length_pack : (pack numElts bs).length = numElts := by simp [pack]

theorem length_eltBits (hlen : bs.length = numElts * hashFieldBits) {i : ℕ} (hi : i < numElts) :
    (eltBits numElts bs i).length = hashFieldBits := by
  have hmul : (numElts - i - 1) * hashFieldBits + hashFieldBits ≤ numElts * hashFieldBits := by
    rw [← Nat.succ_mul]
    exact Nat.mul_le_mul_right _ (by omega)
  rw [eltBits, List.length_take, List.length_drop, hlen]
  omega

theorem bits_eltBits (numElts : ℕ) (h : Bits bs) (i : ℕ) : Bits (eltBits numElts bs i) :=
  (h.drop _).take _

/-- A field element has 64 bits. -/
theorem pack_bounds (h : Bits bs) (hlen : bs.length = numElts * hashFieldBits) :
    ∀ v ∈ pack numElts bs, 0 ≤ v ∧ v < 2 ^ hashFieldBits := by
  intro v hv
  obtain ⟨i, hi, rfl⟩ := List.mem_map.1 hv
  have hbounds := unsigned_bounds (bits_eltBits numElts h i).reverse
  rwa [List.length_reverse, length_eltBits hlen (List.mem_range.1 hi)] at hbounds

/-- The field elements determine the hash. -/
theorem pack_injective {bs' : List ℤ} (h : Bits bs) (h' : Bits bs')
    (hlen : bs.length = numElts * hashFieldBits) (hlen' : bs'.length = numElts * hashFieldBits)
    (heq : pack numElts bs = pack numElts bs') : bs = bs' := by
  have helt : ∀ i < numElts, eltBits numElts bs i = eltBits numElts bs' i := by
    intro i hi
    have hval := List.map_inj_left.1 heq i (List.mem_range.2 hi)
    have hlens : (eltBits numElts bs i).length = (eltBits numElts bs' i).length := by
      rw [length_eltBits hlen hi, length_eltBits hlen' hi]
    exact List.reverse_injective (unsigned_injective (bits_eltBits numElts h i).reverse
      (bits_eltBits numElts h' i).reverse (by simpa using hlens) hval)
  refine List.ext_getElem? fun k => ?_
  rcases Nat.lt_or_ge k (numElts * hashFieldBits) with hk | hk
  · -- bit `k` is in the element that ends with it
    have hq : k / hashFieldBits < numElts := Nat.div_lt_of_lt_mul (by rwa [Nat.mul_comm])
    have hr : k % hashFieldBits < hashFieldBits := Nat.mod_lt _ (by decide)
    have hk' : k / hashFieldBits * hashFieldBits + k % hashFieldBits = k := Nat.div_add_mod' _ _
    generalize k / hashFieldBits = q at hq hk'
    generalize k % hashFieldBits = r at hr hk'
    have hget := congrArg (·[r]?) (helt (numElts - q - 1) (by omega))
    have hi : numElts - (numElts - q - 1) - 1 = q := by omega
    simp only [eltBits, hi, List.getElem?_take_of_lt hr, List.getElem?_drop, hk'] at hget
    exact hget
  · rw [List.getElem?_eq_none (by omega), List.getElem?_eq_none (by omega)]

/-- Field element `i` of a circuit's hash starts with the highest of the bits of the storage's. -/
theorem pack_reverse_ints {bits : List Bool} (hlen : bits.length = numElts * hashFieldBits) :
    pack numElts (Tables.ints bits).reverse = createHash numElts bits := by
  refine List.map_congr_left fun i hi => ?_
  have hi := List.mem_range.1 hi
  have hmul : (numElts - i - 1) * hashFieldBits + (i + 1) * hashFieldBits =
      numElts * hashFieldBits := by
    rw [← Nat.add_mul]
    congr 1
    omega
  have hsucc : (i + 1) * hashFieldBits = i * hashFieldBits + hashFieldBits := Nat.succ_mul _ _
  rw [eltBits, List.drop_reverse, List.take_reverse, List.reverse_reverse, List.length_take,
    Tables.length_ints, hlen, Tables.ints, Tables.ints, List.map_take, List.map_drop]
  congr 1
  rw [show numElts * hashFieldBits - (numElts - i - 1) * hashFieldBits =
      i * hashFieldBits + hashFieldBits by omega,
    show min (i * hashFieldBits + hashFieldBits) (numElts * hashFieldBits) - hashFieldBits =
      i * hashFieldBits by omega, List.drop_take, Nat.add_sub_cancel_left]

end

section
variable {p : ℕ} [Fact p.Prime] {z : Var → ZMod p} (hz : Base z)
include hz

theorem sound_final (numElts : ℕ) {hashBits : List Var} {bs : List ℤ} (h : Holds z hashBits bs) :
    Sound z (final numElts hashBits) fun elts => Holds z elts (pack numElts bs) := by
  refine (Sound.each
    (P := fun i x => z x = ((unsigned (eltBits numElts bs i).reverse : ℤ) : ZMod p))
    _ fun i _ => (sound_combine hz _).mono fun x hx => hx _ ((h.drop _).take _)).mono
      fun elts helts => ?_
  unfold Holds pack
  generalize List.range numElts = l at helts
  induction helts with
  | nil => rfl
  | cons hx _ ih => rw [List.map_cons, List.map_cons, List.map_cons, hx, ih]

theorem sound_compareTo {v1 v2 : List Var} (hlen : v1.length = v2.length) :
    Sound z (compareTo v1 v2) fun _ => v1.map z = v2.map z := by
  refine .bind (Sound.each _ fun c _ => sound_assignment hz c.1 c.2) fun us hus => .pure ?_
  induction v1 generalizing v2 us with
  | nil =>
    obtain rfl : v2 = [] := List.length_eq_zero_iff.1 hlen.symm
    rfl
  | cons x v1 ih =>
    cases v2 with
    | nil => cases hlen
    | cons y v2 =>
      cases hus with
      | cons hx hus => rw [List.map_cons, List.map_cons, hx, ih (Nat.succ.inj hlen) _ hus]

end

theorem runs_final (env : Env) {n : ℕ} {s : Var → ℤ} (numElts : ℕ) (hs : Base s) (hn : 2 ≤ n)
    {hashBits : List Var} (hbits : ∀ x ∈ hashBits, x.Below n) :
    Runs (machine env) (final numElts hashBits) n s fun elts m s' =>
      (∀ w ∈ elts, w.Below m) ∧ elts.map s' = pack numElts (hashBits.map s) := by
  refine Runs.each_wire _ fun i _ m s' hm hs' => ?_
  have hbelow : ∀ x ∈ eltBits numElts hashBits i, x.Below n :=
    fun x hx => hbits x (List.mem_of_mem_drop (List.mem_of_mem_take hx))
  have hrun := runs_combine env (hs.of_agree hn hs') (hn.trans hm) fun x hx => (hbelow x hx).mono hm
  rw [hs'.map_eq hbelow, eltBits, List.map_take, List.map_drop] at hrun
  exact hrun

/-! ## What the circuits compute -/

/-- The functions that the circuits of a hash function are meant to compute, and the inputs for
which they do. All lists of bits are among these. -/
structure Hasher.Spec (h : Hasher) where
  leaf : List ℤ → List ℤ
  node : List ℤ → List ℤ → List ℤ
  LeafRange : List ℤ → Prop
  NodeRange : List ℤ × List ℤ → Prop
  bits_leaf {xs : List ℤ} : Bits xs → Bits (leaf xs)
  bits_node {xs ys : List ℤ} : Bits xs → Bits ys → Bits (node xs ys)
  length_leaf (xs : List ℤ) : (leaf xs).length = h.numHashBits
  length_node {xs ys : List ℤ} : xs.length = h.numHashBits → ys.length = h.numHashBits →
    (node xs ys).length = h.numHashBits
  leafRange_of_bits {xs : List ℤ} : Bits xs → LeafRange xs
  nodeRange_of_bits {xs ys : List ℤ} : Bits xs → Bits ys → NodeRange (xs, ys)

namespace Hasher.Spec
variable {h : Hasher} (S : h.Spec)

/-- In every assignment that satisfies the rows, the circuits compute the functions. -/
structure Computes (p : ℕ) : Prop where
  leaf (z : Var → ZMod p) (vars : List Var) (xs : List ℤ) : Base z → Holds z vars xs →
    S.LeafRange xs → Sound z (h.hashValueBits vars) fun r => Holds z r (S.leaf xs)
  node (z : Var → ZMod p) (left right : List Var) (xs ys : List ℤ) : Base z → Holds z left xs →
    Holds z right ys → S.NodeRange (xs, ys) →
    Sound z (h.hashChildren left right) fun r => Holds z r (S.node xs ys)

/-- The prover's commands compute the functions and satisfy the rows. -/
structure Executes (env : Env) : Prop where
  leaf (n : ℕ) (s : Var → ℤ) (vars : List Var) : 2 ≤ n → Base s → (∀ x ∈ vars, x.Below n) →
    S.LeafRange (vars.map s) → Runs (machine env) (h.hashValueBits vars) n s fun r m s' =>
      (∀ w ∈ r, w.Below m) ∧ r.map s' = S.leaf (vars.map s)
  node (n : ℕ) (s : Var → ℤ) (left right : List Var) : 2 ≤ n → Base s →
    (∀ x ∈ left, x.Below n) → (∀ x ∈ right, x.Below n) → S.NodeRange (left.map s, right.map s) →
    Runs (machine env) (h.hashChildren left right) n s fun r m s' =>
      (∀ w ∈ r, w.Below m) ∧ r.map s' = S.node (left.map s) (right.map s)

end Hasher.Spec

/-! ## The null hash -/

/-- The bits of a leaf from the last one on, after zeros. -/
def nullHashBits (valBits : List Var) : List Var :=
  List.replicate (2 * hashFieldBits - valBits.length) zero ++ valBits.reverse.take
    (2 * hashFieldBits)

def nullHash : Hasher where
  numElts := 2
  hashValueBits valBits := pure (nullHashBits valBits)
  hashChildren left right := xor left right

theorem length_nullLeaf (xs : List ℤ) : (List.replicate (2 * hashFieldBits - xs.length) 0 ++
    xs.reverse.take (2 * hashFieldBits)).length = nullHash.numHashBits := by
  simp only [List.length_append, List.length_replicate, List.length_take, List.length_reverse,
    Hasher.numHashBits, nullHash]
  omega

def nullSpec : nullHash.Spec where
  leaf xs := List.replicate (2 * hashFieldBits - xs.length) 0 ++ xs.reverse.take (2 * hashFieldBits)
  node xs ys := List.zipWith (fun x y => -2 * x * y + x + y) xs ys
  LeafRange _ := True
  NodeRange _ := True
  bits_leaf hxs := Bits.append.2 ⟨Bits.replicate (.inl rfl) _, hxs.reverse.take _⟩
  bits_node {xs ys} hxs hys := by
    intro b hb
    rw [← List.map_uncurry_zip_eq_zipWith] at hb
    obtain ⟨c, hc, rfl⟩ := List.mem_map.1 hb
    obtain ⟨h1, h2⟩ := List.of_mem_zip hc
    rcases hxs _ h1 with h1 | h1 <;> rcases hys _ h2 with h2 | h2 <;>
      simp [Function.uncurry, h1, h2, IsBit]
  length_leaf := length_nullLeaf
  length_node hxs hys := by rw [List.length_zipWith, hxs, hys, Nat.min_self]
  leafRange_of_bits _ := trivial
  nodeRange_of_bits _ _ := trivial

theorem nullSpec_computes (p : ℕ) [Fact p.Prime] : nullSpec.Computes p where
  leaf z vars xs hz hin _ := by
    have hzeros : Holds z (List.replicate (2 * hashFieldBits - xs.length) zero)
        (List.replicate (2 * hashFieldBits - xs.length) 0) := by
      simp [Holds, hz.zero]
    refine .pure ?_
    rw [nullHashBits, hin.length_eq]
    exact hzeros.append (hin.reverse.take _)
  node z left right xs ys hz hleft hright _ := sound_xor hz hleft hright

theorem nullSpec_executes (env : Env) : nullSpec.Executes env where
  leaf n s vars hn hs hvars _ := by
    refine .pure ⟨?_, ?_⟩
    · intro w hw
      rcases List.mem_append.1 hw with hw | hw
      · rw [List.eq_of_mem_replicate hw]
        exact Generator.Wire.below_fresh.2 (by omega)
      · exact hvars w (List.mem_reverse.1 (List.mem_of_mem_take hw))
    · simp [nullHashBits, nullSpec, hs.zero]
  node n s left right hn hs hleft hright _ := runs_xor env hs hn hleft hright

/-! ## The hash of the tables -/

theorem elts_outputBits : outputBits / hashFieldBits * hashFieldBits = outputBits := by decide

namespace Tables
variable (T : Tables)

def hasher : Hasher where
  numElts := outputBits / hashFieldBits
  hashValueBits := T.hashBits
  hashChildren := T.hashChildren

/-- The hash of a list, from the high end. -/
def hashInts (xs : List ℤ) : List ℤ := (T.absorbFrom xs.length true (ints T.copyIVBits) xs).reverse

/-- The sums of rows do not need more bits than they have. -/
def InRange (xs : List ℤ) : Prop :=
  LightInput (head true (ints T.copyIVBits) (ints (copyLengthBits xs.length))) (room true) xs

theorem inRange_of_bits {xs : List ℤ} (h : Bits xs) : T.InRange xs :=
  lightInput_of_bits (Bits.append.2 ⟨bits_ints _, bits_ints _⟩) h _

theorem length_hashInts (xs : List ℤ) : (T.hashInts xs).length = outputBits := by
  rw [hashInts, List.length_reverse]
  exact Format.absorb_induction (P := fun l => l.length = outputBits) length_compress

theorem bits_hashInts (xs : List ℤ) : Bits (T.hashInts xs) :=
  Bits.reverse (Format.absorb_induction (P := Bits) bits_compress)

def spec : T.hasher.Spec where
  leaf := T.hashInts
  node xs ys := T.hashInts (ys ++ xs).reverse
  LeafRange := T.InRange
  NodeRange pr := T.InRange (pr.2 ++ pr.1).reverse
  bits_leaf _ := T.bits_hashInts _
  bits_node _ _ := T.bits_hashInts _
  length_leaf xs := (T.length_hashInts xs).trans elts_outputBits.symm
  length_node _ _ := (T.length_hashInts _).trans elts_outputBits.symm
  leafRange_of_bits := T.inRange_of_bits
  nodeRange_of_bits hxs hys := T.inRange_of_bits (Bits.append.2 ⟨hys, hxs⟩).reverse

variable {T} (hT : T.Valid)
include hT

theorem spec_computes {p : ℕ} [Fact p.Prime] (hp : 2 ^ 32 ≤ p) : T.spec.Computes p := by
  have hleaf : ∀ (z : Var → ZMod p) (vars : List Var) (xs : List ℤ), Base z → Holds z vars xs →
      T.InRange xs → Sound z (T.hashBits vars) fun r => Holds z r (T.hashInts xs) := by
    intro z vars xs hz hin hrange
    have hcv : (ints T.copyIVBits).length = outputBits := by rw [length_ints, length_copyIVBits]
    rw [hashBits, hin.length_eq]
    exact sound_hashLoopVars hT hp hz _ hcv (holds_makeIVBits hz) hin hrange
  exact ⟨hleaf, fun z left right xs ys hz hl hr hrange =>
    hleaf z _ _ hz (hr.append hl).reverse hrange⟩

theorem spec_executes {env : Env} (henv : env.aMat = T.row) : T.spec.Executes env := by
  have hleaf : ∀ (n : ℕ) (s : Var → ℤ) (vars : List Var), 2 ≤ n → Base s →
      (∀ x ∈ vars, x.Below n) → T.InRange (vars.map s) →
      Runs (machine env) (T.hashBits vars) n s fun r m s' =>
        (∀ w ∈ r, w.Below m) ∧ r.map s' = T.hashInts (vars.map s) := by
    intro n s vars hn hs hvars hrange
    unfold InRange at hrange
    unfold hashInts
    rw [List.length_map] at hrange ⊢
    exact runs_hashLoopVars hT henv vars.length hs hn T.length_makeIVBits
      (below_makeIVBits hn) hvars
      (holds_int_iff.1 (holds_makeIVBits hs)) rfl hrange
  refine ⟨hleaf, fun n s left right hn hs hl hr hrange => ?_⟩
  have hmap : (right ++ left).reverse.map s = (right.map s ++ left.map s).reverse := by
    rw [List.map_reverse, List.map_append]
  have hrun := hleaf n s (right ++ left).reverse hn hs (fun x hx => by
    rw [List.mem_reverse, List.mem_append] at hx
    exact hx.elim (hr x) (hl x)) (hmap ▸ hrange)
  rw [hmap] at hrun
  exact hrun

/-- On bits it is the storage's hash in reverse. -/
theorem hashInts_ints {v : List Bool} (hlen : v.length < 2 ^ 31) :
    T.hashInts (ints v) = (ints (T.hash v)).reverse := by
  rw [hashInts, length_ints, absorbFrom_eq_hash hT hlen]

end Tables

/-! ## The choice of a hash function -/

inductive HashFunc where
  | null
  | ggh
  deriving DecidableEq, Repr

namespace HashFunc
variable (T : Tables)

def hasher : HashFunc → Hasher
  | null => nullHash
  | ggh => T.hasher

def spec : (f : HashFunc) → (f.hasher T).Spec
  | null => nullSpec
  | ggh => T.spec

variable {T}

theorem spec_computes (hT : T.Valid) (f : HashFunc) {p : ℕ} [Fact p.Prime] (hp : 2 ^ 32 ≤ p) :
    (f.spec T).Computes p := by
  cases f with
  | null => exact nullSpec_computes p
  | ggh => exact Tables.spec_computes hT hp

theorem spec_executes (hT : T.Valid) (f : HashFunc) {env : Env} (henv : env.aMat = T.row) :
    (f.spec T).Executes env := by
  cases f with
  | null => exact nullSpec_executes env
  | ggh => exact Tables.spec_executes hT henv

end HashFunc

/-! ## The storage's hash functions -/

namespace HashFunc
variable (T : Tables)

def hash : HashFunc → List Bool → List Bool
  | null, v =>
    let start := 2 * hashFieldBits - v.length
    (List.range (2 * hashFieldBits)).map fun i =>
      if i < start then false else v.getD (i - start) false
  | ggh, v => T.hash v

def hashPair : HashFunc → List Bool → List Bool → List Bool
  | null, left, right => List.zipWith Bool.xor left right
  | ggh, left, right => T.hashPair left right

variable {T}

theorem numElts_pos (f : HashFunc) : 0 < (f.hasher T).numElts := by
  cases f with
  | null => exact two_pos
  | ggh => exact (by decide : 0 < outputBits / hashFieldBits)

theorem numHashBits_ggh : (ggh.hasher T).numHashBits = outputBits := elts_outputBits

/-- A circuit's hash of an inner node is the storage's in reverse. -/
theorem node_ints (hT : T.Valid) (f : HashFunc) {left right : List Bool}
    (hleft : left.length = (f.hasher T).numHashBits)
    (hright : right.length = (f.hasher T).numHashBits) :
    (f.spec T).node (Tables.ints left).reverse (Tables.ints right).reverse =
      (Tables.ints (f.hashPair T left right)).reverse := by
  cases f with
  | null =>
    have hxor : Tables.ints (List.zipWith Bool.xor left right) =
        List.zipWith (fun x y => -2 * x * y + x + y) (Tables.ints left) (Tables.ints right) := by
      rw [Tables.ints, Tables.ints, Tables.ints, List.map_zipWith, List.zipWith_map]
      congr 1
      funext a b
      cases a <;> cases b <;> rfl
    rw [hashPair, hxor, List.reverse_zipWith (by simp [hleft, hright])]
    rfl
  | ggh =>
    have happend : Tables.ints left ++ Tables.ints right = Tables.ints (left ++ right) :=
      List.map_append.symm
    rw [numHashBits_ggh] at hleft hright
    have hlen : (left ++ right).length < 2 ^ 31 := by
      rw [List.length_append, hleft, hright]
      decide
    show T.hashInts ((Tables.ints right).reverse ++ (Tables.ints left).reverse).reverse = _
    rw [← List.reverse_append, List.reverse_reverse, happend, Tables.hashInts_ints hT hlen]
    rfl

end HashFunc

end Pequin.Merkle
