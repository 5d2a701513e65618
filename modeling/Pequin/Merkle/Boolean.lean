import Pequin.Merkle.BlockByHash
import Pequin.Merkle.PathSoundness

/-!
# Which supplied variables are bits

The values that the prover supplies and the hash function reads should be bits. The rows of reading
a block by its hash say so. Those of a read or a write of a cell do not: a `2` in the place of a bit
gives sums that still fit the bits of a row, so the hash circuit takes it.
-/

namespace Pequin.Merkle
open Generator TwosComplement HashTree

/-! ## Inputs with a two -/

namespace Tables
variable {T : Tables}

theorem light_append {pre ys : List ℤ} (hpre : Bits pre) (hys : ∀ y ∈ ys, 0 ≤ y) {k : ℕ}
    (hlen : 2 ^ k < pre.length + ys.length) (hsum : pre.length + ys.sum ≤ 2 ^ (k + 1)) :
    Light (pre ++ ys) := by
  constructor
  · intro x hx
    exact (List.mem_append.1 hx).elim (hpre.nonneg x) (hys x)
  · have hk : k + 1 ≤ Nat.clog 2 (pre ++ ys).length := by
      rw [List.length_append]
      exact (Nat.lt_clog_iff_pow_lt one_lt_two).2 hlen
    have hpow : (2 : ℤ) ^ (k + 1) ≤ 2 ^ Nat.clog 2 (pre ++ ys).length :=
      pow_le_pow_right₀ one_le_two hk
    have hle := hpre.sum_le
    rw [List.sum_append]
    omega

/-- An input is in range if its sum is small for its length. -/
theorem inRange_of_sum_le {xs : List ℤ} {k : ℕ} (hk : k ≤ 12) (hnonneg : ∀ x ∈ xs, 0 ≤ x)
    (hlen : 2 ^ k < headBits true + xs.length) (hsum : headBits true + xs.sum < 2 ^ (k + 1))
    (hrest : Bits (xs.drop (room true))) : T.InRange xs := by
  have hpre : Bits (head true (ints T.copyIVBits) (ints (copyLengthBits xs.length))) :=
    Bits.append.2 ⟨bits_ints _, bits_ints _⟩
  have hprelen : (head true (ints T.copyIVBits) (ints (copyLengthBits xs.length))).length =
      headBits true :=
    length_head (by rw [length_ints, length_copyIVBits])
      (by rw [length_ints, length_copyLengthBits])
  refine ⟨fun _ => ?_, fun hle => ?_, hrest⟩
  · rw [List.append_assoc]
    refine light_append (k := k) hpre ?_ ?_ ?_
    · intro y hy
      rcases List.mem_append.1 hy with hy | hy
      · exact hnonneg y hy
      · rw [List.mem_singleton.1 hy]
        exact zero_le_one
    · rw [hprelen, List.length_append]
      omega
    · rw [hprelen, List.sum_append, List.sum_singleton]
      omega
  · -- a full block has more than `2^12` columns
    have hfull : headBits true + room true = numColumns := Nat.add_sub_cancel' (headBits_lt true).le
    have htake : (xs.take (room true)).sum ≤ xs.sum := (List.take_sublist _ _).sum_le_sum hnonneg
    have hpow : (2 : ℤ) ^ (k + 1) ≤ 2 ^ (12 + 1) := pow_le_pow_right₀ one_le_two (by omega)
    refine light_append (k := 12) hpre (fun y hy => hnonneg y (List.mem_of_mem_take hy)) ?_ ?_
    · rw [hprelen, List.length_take, Nat.min_eq_left hle, hfull]
      decide
    · rw [hprelen]
      omega

end Tables

/-- A `2` and then zeros. -/
def twoZeros (k : ℕ) : List ℤ := 2 :: List.replicate k 0

theorem nonneg_twoZeros {k : ℕ} : ∀ x ∈ twoZeros k, 0 ≤ x := by
  intro x hx
  rcases List.mem_cons.1 hx with rfl | hx
  · exact zero_le_two
  · rw [List.eq_of_mem_replicate hx]

theorem sum_twoZeros (k : ℕ) : (twoZeros k).sum = 2 := by simp [twoZeros]

theorem length_twoZeros (k : ℕ) : (twoZeros k).length = k + 1 := by simp [twoZeros]

section
variable {T : Tables}

/-- A leaf may have a `2`. -/
theorem leafRange_twoZeros (f : HashFunc) (k : ℕ) : (f.spec T).LeafRange (twoZeros k) := by
  cases f with
  | null => trivial
  | ggh =>
    have hbits : Bits ((twoZeros k).drop (Tables.room true)) := by
      obtain ⟨m, hm⟩ := Nat.exists_eq_add_of_lt (Tables.room_pos true)
      rw [hm, twoZeros, List.drop_succ_cons]
      exact (Bits.replicate (.inl rfl) k).drop _
    refine Tables.inRange_of_sum_le (k := 10) (by decide) nonneg_twoZeros ?_ ?_ hbits
    · exact Nat.lt_add_right _ (by decide)
    · rw [sum_twoZeros]
      decide

/-- The hash of any leaf leads to nodes in range. -/
theorem nodeRange_leaf (f : HashFunc) (xs : List ℤ) {ss : List (List ℤ)} (hss : ∀ s ∈ ss, Bits s)
    (i : ℕ) : ∀ pr ∈ climbPairs (f.spec T).node i ((f.spec T).leaf xs) ss,
      (f.spec T).NodeRange pr := by
  cases f with
  | null => exact fun _ _ => trivial
  | ggh => exact nodeRange_climbPairs T.spec (T.bits_hashInts xs) hss i

/-- The lowest sibling may have a `2`. -/
theorem nodeRange_twoZeros (f : HashFunc) {x : List ℤ} (hx : Bits x)
    (hlen : x.length = (f.hasher T).numHashBits) {ss : List (List ℤ)} (hss : ∀ s ∈ ss, Bits s) :
    ∀ pr ∈ climbPairs (f.spec T).node 0 x (twoZeros ((f.hasher T).numHashBits - 1) :: ss),
      (f.spec T).NodeRange pr := by
  cases f with
  | null => exact fun _ _ => trivial
  | ggh =>
    rw [HashFunc.numHashBits_ggh] at hlen ⊢
    intro pr hpr
    rcases List.mem_cons.1 hpr with rfl | hpr
    · have hroom : (twoZeros (outputBits - 1) ++ x).length ≤ Tables.room true := by
        rw [List.length_append, length_twoZeros, hlen]
        decide
      refine Tables.inRange_of_sum_le (k := 11) (by decide) ?_ ?_ ?_ ?_
      · intro y hy
        exact (List.mem_append.1 (List.mem_reverse.1 hy)).elim (nonneg_twoZeros y) (hx.nonneg y)
      · show 2 ^ 11 < headBits true + (twoZeros (outputBits - 1) ++ x).reverse.length
        rw [List.length_reverse, List.length_append, length_twoZeros, hlen]
        decide
      · show headBits true + (twoZeros (outputBits - 1) ++ x).reverse.sum < 2 ^ (11 + 1)
        have hle := hx.sum_le
        have hval : (headBits true : ℤ) + (2 + outputBits) < 2 ^ (11 + 1) := by decide
        rw [List.sum_reverse, List.sum_append, sum_twoZeros]
        rw [hlen] at hle
        omega
      · show Bits ((twoZeros (outputBits - 1) ++ x).reverse.drop (Tables.room true))
        rw [List.drop_eq_nil_of_le (by rwa [List.length_reverse])]
        exact fun _ hb => absurd hb List.not_mem_nil
    · exact nodeRange_climbPairs T.spec (T.bits_hashInts _) hss _ pr hpr

end

/-! ## A prover that supplies a two -/

/-- A prover with one cell's content and one hash for each level. -/
def cheatEnv (T : Tables) (numHashBits : ℕ) (leaf : List ℤ) (sib : ℕ → List ℤ) : Env where
  aMat := T.row
  ram _ := leaf
  numHashBits := numHashBits
  siblingHash _ level := sib level
  block _ := []

/-- An assignment with a `2` among the supplied values. -/
def SuppliesTwo (h : Hasher) (dbSize width : ℕ) (op : Op) (s : Var → ℤ) : Prop :=
  Satisfies s (template h dbSize width op) ∧ ∃ w ∈ (template h dbSize width op).val.vars, s w = 2

variable {h : Hasher}

theorem Filled.suppliesTwo {S : h.Spec} {env : Env} {dbSize index : ℕ} {leaf values : List ℤ}
    {op : Op} {s : Var → ℤ} (hf : Filled S env dbSize index leaf values op s)
    (htwo : 2 ∈ leaf ∨ ∃ b ∈ env.siblings (Env.address index) (numLevels dbSize), 2 ∈ b) :
    SuppliesTwo h dbSize values.length op s := by
  refine ⟨hf.satisfies, ?_⟩
  rcases htwo with hmem | ⟨b, hb, hmem⟩
  · rw [← hf.supplied.leaf] at hmem
    obtain ⟨w, hw, hsw⟩ := List.mem_map.1 hmem
    exact ⟨w, List.mem_append_left _ hw, hsw⟩
  · rw [← hf.supplied.siblings] at hb
    obtain ⟨ws, hws, rfl⟩ := List.mem_map.1 hb
    obtain ⟨w, hw, hsw⟩ := List.mem_map.1 hmem
    exact ⟨w, List.mem_append_right _ (List.mem_flatten.2 ⟨ws, hws, hw⟩), hsw⟩

/-- What a read takes as a cell, a write takes as the old cell and as the new one. -/
theorem exists_suppliesTwo {S : h.Spec} {env : Env} (hS : S.Executes env) {dbSize : ℕ}
    {leaf : List ℤ} (ha : Answers S env (numLevels dbSize) 0 leaf) (hram : env.ram 0 = leaf)
    (htwo : 2 ∈ leaf ∨ ∃ b ∈ env.siblings 0 (numLevels dbSize), 2 ∈ b) {op : Op}
    (hop : op ≠ .getBlockByHash) : ∃ s, SuppliesTwo h dbSize leaf.length op s := by
  cases op with
  | getBits =>
    obtain ⟨s, hf⟩ := exists_filled_getBits hS ha hram
    exact ⟨s, hf.suppliesTwo htwo⟩
  | putBits =>
    obtain ⟨s, hf⟩ := exists_filled_putBits hS ha hram ha rfl
    exact ⟨s, hf.suppliesTwo htwo⟩
  | getBlockByHash => exact absurd rfl hop

section
variable {T : Tables} (hT : T.Valid) (f : HashFunc)
include hT

/-- Any cell that has a bit may have a `2` in its place. -/
theorem exists_suppliesTwo_leaf (dbSize k : ℕ) {op : Op} (hop : op ≠ .getBlockByHash) :
    ∃ s, SuppliesTwo (f.hasher T) dbSize (k + 1) op s := by
  let zeros := List.replicate (f.hasher T).numHashBits (0 : ℤ)
  have hzeros : Bits zeros := Bits.replicate (.inl rfl) _
  let env := cheatEnv T (f.hasher T).numHashBits (twoZeros k) fun _ => zeros
  have hss : ∀ s ∈ (env.siblings 0 (numLevels dbSize)).reverse, Bits s := by
    intro s hs
    obtain ⟨i, -, rfl⟩ := List.mem_map.1 (List.mem_reverse.1 hs)
    exact hzeros.reverse
  have ha : Answers (f.spec T) env (numLevels dbSize) 0 (twoZeros k) :=
    ⟨Nat.two_pow_pos _, rfl, fun _ _ => List.length_replicate, leafRange_twoZeros f k,
      nodeRange_leaf f _ hss 0⟩
  have hexec : (f.spec T).Executes env := f.spec_executes hT rfl
  have htwo := exists_suppliesTwo hexec ha rfl (.inl List.mem_cons_self) hop
  rwa [length_twoZeros] at htwo

/-- Where a cell has no bits, the hash of its sibling may have a `2`. -/
theorem exists_suppliesTwo_sibling {dbSize : ℕ} (hsize : 1 < dbSize) {op : Op}
    (hop : op ≠ .getBlockByHash) : ∃ s, SuppliesTwo (f.hasher T) dbSize 0 op s := by
  obtain ⟨m, hm⟩ : ∃ m, Nat.clog 2 dbSize = m + 1 :=
    Nat.exists_eq_succ_of_ne_zero (Nat.clog_pos one_lt_two hsize).ne'
  let zeros := List.replicate (f.hasher T).numHashBits (0 : ℤ)
  let two := twoZeros ((f.hasher T).numHashBits - 1)
  have hzeros : Bits zeros := Bits.replicate (.inl rfl) _
  have hpos : 0 < (f.hasher T).numHashBits := Nat.mul_pos f.numElts_pos (by decide)
  let env := cheatEnv T (f.hasher T).numHashBits [] fun level =>
    if level = m + 1 then two.reverse else zeros
  have hsib : env.siblings 0 (numLevels dbSize) = List.replicate m zeros ++ [two] := by
    have hlow : ∀ i ∈ List.range m,
        (if i + 1 = m + 1 then two.reverse else zeros).reverse = zeros := by
      intro i hi
      rw [if_neg (by have := List.mem_range.1 hi; omega), List.reverse_replicate]
    rw [Env.siblings, numLevels, hm, Nat.add_sub_cancel, List.range_succ, List.map_append]
    simp only [env, cheatEnv]
    rw [List.map_congr_left hlow, List.map_const', List.length_range, List.map_singleton,
      if_pos rfl, List.reverse_reverse]
  have hrev : (env.siblings 0 (numLevels dbSize)).reverse = two :: List.replicate m zeros := by
    rw [hsib, List.reverse_append, List.reverse_replicate]
    rfl
  have hlens : ∀ i < numLevels dbSize - 1, (env.siblingHash 0 (i + 1)).length =
      (f.hasher T).numHashBits := by
    intro i _
    simp only [env, cheatEnv]
    split
    · rw [List.length_reverse, length_twoZeros, Nat.sub_add_cancel hpos]
    · exact List.length_replicate
  have ha : Answers (f.spec T) env (numLevels dbSize) 0 [] := by
    have hnil : Bits [] := fun _ hb => absurd hb List.not_mem_nil
    refine ⟨Nat.two_pow_pos _, rfl, hlens, (f.spec T).leafRange_of_bits hnil, ?_⟩
    show ∀ pr ∈ climbPairs _ 0 _ (env.siblings 0 (numLevels dbSize)).reverse, _
    rw [hrev]
    refine nodeRange_twoZeros f ((f.spec T).bits_leaf hnil) ((f.spec T).length_leaf []) ?_
    intro s hs
    rwa [List.eq_of_mem_replicate hs]
  refine exists_suppliesTwo (f.spec_executes hT rfl) ha rfl (.inr ⟨two, ?_, List.mem_cons_self⟩) hop
  rw [hsib]
  exact List.mem_append_right _ List.mem_cons_self

end

/-! ## When the supplied values are bits -/

theorem sound_getBlockByHashOp {p : ℕ} [Fact p.Prime] {z : Var → ZMod p} (hz : Base z)
    (hashBits valueBits : List Var) :
    Sound z (getBlockByHashOp h hashBits valueBits) fun e => ∀ w ∈ e.vars, z w = 0 ∨ z w = 1 := by
  refine .bind (Sound.trivial _) fun _ _ => .bind (Sound.trivial _) fun _ _ => ?_
  refine .bind (Sound.each _ fun x _ => sound_ensureBit hz x) fun us hus => ?_
  refine .bind (Sound.trivial _) fun _ _ => .pure fun w hw => ?_
  rw [Supplied.vars, List.flatten_nil, List.append_nil] at hw
  clear * - hus hw
  induction hus with
  | nil => exact absurd hw List.not_mem_nil
  | cons hx _ ih =>
    rcases List.mem_cons.1 hw with rfl | hw
    · exact hx
    · exact ih hw

/-- An empty cell without siblings leaves nothing to supply. -/
theorem vars_template_nil {dbSize : ℕ} (hsize : dbSize ≤ 1) {op : Op} :
    (template h dbSize 0 op).val.vars = [] := by
  have hlevels : numLevels dbSize = 1 := by rw [numLevels, Nat.clog_of_right_le_one hsize]
  have hval : (template h dbSize 0 op).val = (genOp h dbSize 0 op 2).val := rfl
  rw [hval]
  cases op with
  | getBits =>
    rw [genOp, hlevels]
    rfl
  | putBits =>
    rw [genOp, hlevels]
    rfl
  | getBlockByHash => rfl

theorem zmod_two_cases : ∀ x : ZMod 2, x = 0 ∨ x = 1 := by decide

theorem cast_two_ne {p : ℕ} [Fact p.Prime] (hp : p ≠ 2) : ¬(((2 : ℤ) : ZMod p) = 0 ∨
    ((2 : ℤ) : ZMod p) = 1) := by
  rintro (h | h)
  · have hdvd : p ∣ 2 := (ZMod.natCast_eq_zero_iff 2 p).1 (by exact_mod_cast h)
    exact hp ((Nat.prime_dvd_prime_iff_eq Fact.out Nat.prime_two).1 hdvd)
  · have hone : (1 : ZMod p) = 0 := by linear_combination h
    exact one_ne_zero hone

/-- The values that the prover supplies to the hash function are bits in every satisfying assignment
if and only if the operation reads a block by its hash, or the database has one cell, without bits.
In the field with two elements there is nothing but bits. -/
theorem supplied_bits_iff {T : Tables} (hT : T.Valid) (f : HashFunc) {p : ℕ} [Fact p.Prime]
    (dbSize width : ℕ) (op : Op) :
    (∀ z : Var → ZMod p, Satisfies z (template (f.hasher T) dbSize width op) →
      ∀ w ∈ (template (f.hasher T) dbSize width op).val.vars, z w = 0 ∨ z w = 1) ↔
    op = .getBlockByHash ∨ width = 0 ∧ dbSize ≤ 1 ∨ p = 2 := by
  constructor
  · intro hbits
    by_contra hcond
    obtain ⟨hop, hcell, hp⟩ : op ≠ .getBlockByHash ∧ ¬(width = 0 ∧ dbSize ≤ 1) ∧ p ≠ 2 := by tauto
    obtain ⟨s, hsat, w, hw, htwo⟩ : ∃ s, SuppliesTwo (f.hasher T) dbSize width op s := by
      cases width with
      | zero => exact exists_suppliesTwo_sibling hT f (by simpa using hcell) hop
      | succ k => exact exists_suppliesTwo_leaf hT f dbSize k hop
    have hw' := hbits _ (hsat.cast (ZMod p)) w hw
    rw [htwo] at hw'
    exact cast_two_ne hp hw'
  · rintro (rfl | ⟨rfl, hsize⟩ | rfl) z hsat w hw
    · obtain ⟨hz, hrows⟩ := satisfies_template.1 hsat
      exact sound_getBlockByHashOp hz _ _ 2 hrows w hw
    · rw [vars_template_nil hsize] at hw
      exact absurd hw List.not_mem_nil
    · exact zmod_two_cases (z w)

theorem supplied_bits_nullHash :
    (∀ z : Var → ZMod 3, Satisfies z (template nullHash 8 5 .getBlockByHash) →
      ∀ w ∈ (template nullHash 8 5 .getBlockByHash).val.vars, z w = 0 ∨ z w = 1) ↔
    Op.getBlockByHash = .getBlockByHash ∨ 5 = 0 ∧ 8 ≤ 1 ∨ 3 = 2 :=
  supplied_bits_iff (T := ⟨fun _ _ => 0, fun _ => 0⟩) (fun _ _ => Nat.two_pow_pos _) .null 8 5
    .getBlockByHash

/-- A read of a cell with one bit takes a `2`. -/
theorem supplied_two_nullHash : ∃ z : Var → ZMod 3,
    Satisfies z (template nullHash 1 1 .getBits) ∧
    ∃ w ∈ (template nullHash 1 1 .getBits).val.vars, ¬(z w = 0 ∨ z w = 1) := by
  have hvalid : (Tables.mk (fun _ _ => 0) fun _ => 0).Valid := fun _ _ => Nat.two_pow_pos _
  have hop : Op.getBits ≠ .getBlockByHash := by decide
  obtain ⟨s, hsat, w, hw, htwo⟩ := exists_suppliesTwo_leaf hvalid .null 1 0 hop
  refine ⟨_, hsat.cast (ZMod 3), w, hw, ?_⟩
  rw [htwo]
  decide

end Pequin.Merkle
