import Mathlib.NumberTheory.LucasLehmer
import Pequin.Merkle.Ggh

/-!
# The circuit's hash and the storage's hash agree

What the constraints force the bits of a hash to be, and what the prover's commands make them, is
the storage's hash in reverse. For the storage this needs an input of fewer than `2^31` bits: it
counts the bits that are left in an `int`.
-/

namespace Pequin.Merkle
open Generator TwosComplement Chain

/-- The generator's bits are `out` whenever the variables `ins` hold the bits `bs`: in each
assignment that satisfies the rows, and in the one the prover computes, which satisfies them. -/
structure Evaluates (p : ℕ) (env : Env) (ins : List Var) (bs : List Bool) (g : Gen (List Var))
    (out : List Bool) : Prop where
  sound : ∀ z : Var → ZMod p, Base z → Holds z ins (Tables.ints bs) →
    Sound z g fun r => Holds z r (Tables.ints out)
  runs : ∀ (n : ℕ) (s : Var → ℤ), 2 ≤ n → Base s → (∀ x ∈ ins, x.Below n) →
    ins.map s = Tables.ints bs →
    Runs (machine env) g n s fun r m s' => (∀ w ∈ r, w.Below m) ∧ r.map s' = Tables.ints out

namespace Tables
variable {T : Tables}

theorem ints_reverse (bs : List Bool) : ints bs.reverse = (ints bs).reverse := List.map_reverse

/-- The sum of a row without a bound on it. -/
def exactSum (T : Tables) (i : ℕ) (input : List Bool) : ℕ :=
  (input.zipIdx.map fun b => if b.1 then T.aMat i b.2 else 0).sum

theorem exactSum_eq (i : ℕ) (input : List Bool) :
    (T.exactSum i input : ℤ) = dot (T.row i) (ints input) := by
  suffices h : ∀ k, (((input.zipIdx k).map fun b => if b.1 then T.aMat i b.2 else 0).sum : ℕ) =
      (((ints input).zipIdx k).map fun x => T.row i x.2 * x.1).sum from h 0
  induction input with
  | nil => intro k; rfl
  | cons b input ih =>
    intro k
    simp only [ints, List.map_cons, List.zipIdx_cons, List.sum_cons, Nat.cast_add]
    rw [ih (k + 1)]
    cases b <;> simp [ints, row]

/-- The bits of a row are enough for its sum, and so are those of a `uint32_t`. -/
theorem rowSum_exact (hT : T.Valid) (i : ℕ) {input : List Bool} (hlen : input.length ≤ numColumns) :
    T.rowSum i input = T.exactSum i input ∧ T.exactSum i input < 2 ^ maxRowBits input.length ∧
      T.exactSum i input < 2 ^ 32 := by
  have hlt : T.exactSum i input < 2 ^ maxRowBits input.length := by
    have h := (light_of_bits (bits_ints input)).dot_lt hT i
    rw [← exactSum_eq, length_ints] at h
    exact_mod_cast h
  refine ⟨?_, hlt, hlt.trans_le (Nat.pow_le_pow_right two_pos (maxRowBits_le hlen))⟩
  have h := rowSum_eq hT i hlen
  rw [← exactSum_eq] at h
  exact_mod_cast h

/-- The whole hash of a bit string. -/
theorem absorbFrom_eq_hash (hT : T.Valid) {input : List Bool} (hlen : input.length < 2 ^ 31) :
    T.absorbFrom input.length true (ints T.copyIVBits) (ints input) = ints (T.hash input) := by
  have hhead : head true (ints T.copyIVBits) (ints (copyLengthBits input.length)) =
      ints (T.copyIVBits ++ copyLengthBits input.length) := by
    simp [head, ints]
  rw [absorbFrom, hhead, absorb_ints hT, hash_eq_absorb T hlen]
  simp only [List.length_append, length_copyIVBits, length_copyLengthBits]
  decide

section
variable (hT : T.Valid) {p : ℕ} [Fact p.Prime] (hp : 2 ^ 33 < p) {env : Env}
  (henv : env.aMat = T.row)
include hT hp henv

theorem hashBlockVars_evaluates {block : List Bool} (hlen : block.length ≤ numColumns)
    (vars : List Var) :
    Evaluates p env vars block (T.hashBlockVars vars) (T.hashBlock block).reverse := by
  have hlight := light_of_bits (bits_ints block)
  have hout : ints (T.hashBlock block).reverse = (T.compress (ints block)).reverse := by
    rw [compress_ints hT hlen, ints_reverse]
  refine ⟨fun z hz hin => ?_, fun n s hn hs hb hin => ?_⟩
  · rw [hout]
    exact sound_hashBlockVars hT (by omega) hz hin hlight (by rwa [length_ints])
  · rw [hout, ← hin]
    exact runs_hashBlockVars hT henv hs hn hb (hin ▸ hlight)

theorem hashBits_evaluates {input : List Bool} (hlen : input.length < 2 ^ 31) (vars : List Var) :
    Evaluates p env vars input (T.hashBits vars) (T.hash input).reverse := by
  have hcv : (ints T.copyIVBits).length = outputBits := by rw [length_ints, length_copyIVBits]
  have hlight : LightInput (head true (ints T.copyIVBits) (ints (copyLengthBits input.length)))
      (room true) (ints input) :=
    lightInput_of_bits (Bits.append.2 ⟨bits_ints _, bits_ints _⟩) (bits_ints _) _
  have hout := absorbFrom_eq_hash hT hlen
  refine ⟨fun z hz hin => ?_, fun n s hn hs hb hin => ?_⟩
  · have hvars : vars.length = input.length := by rw [hin.length_eq, length_ints]
    rw [hashBits, hvars, ints_reverse, ← hout]
    exact sound_hashLoopVars hT (by omega) hz _ hcv (holds_makeIVBits hz) hin hlight
  · have hvars : vars.length = input.length := by rw [← List.length_map s, hin, length_ints]
    rw [hashBits, hvars, ints_reverse, ← hout]
    exact runs_hashLoopVars hT henv _ hs hn T.length_makeIVBits (below_makeIVBits hn) hb
      (holds_int_iff.1 (holds_makeIVBits hs)) hin hlight

/-- An inner node's children are hashed from the low end of the left one. -/
theorem hashChildren_evaluates {left right : List Bool} (hlen : left.length + right.length < 2 ^ 31)
    {lvars rvars : List Var} (hlvars : lvars.length = left.length) :
    Evaluates p env (lvars ++ rvars) (left.reverse ++ right.reverse) (T.hashChildren lvars rvars)
      (T.hashPair left right).reverse := by
  have hvars : (rvars ++ lvars).reverse = lvars.reverse ++ rvars.reverse := List.reverse_append
  have hbits : ints (left.reverse ++ right.reverse) =
      (ints left).reverse ++ (ints right).reverse := by
    rw [← ints_reverse, ← ints_reverse]
    exact List.map_append
  have hchild : ints (left ++ right) = ints left ++ ints right := List.map_append
  have hlen' : (left ++ right).length < 2 ^ 31 := by rwa [List.length_append]
  have heval := hashBits_evaluates hT hp henv hlen' (rvars ++ lvars).reverse
  refine ⟨fun z hz hin => heval.sound z hz ?_, fun n s hn hs hb hin => heval.runs n s hn hs ?_ ?_⟩
  · have hl := hin.take lvars.length
    have hr := hin.drop lvars.length
    have hlen' : lvars.length = (ints left).reverse.length := by simp [hlvars]
    rw [hbits] at hl hr
    rw [List.take_left, hlen', List.take_left] at hl
    rw [List.drop_left, hlen', List.drop_left] at hr
    rw [hvars, hchild]
    simpa using hl.reverse.append hr.reverse
  · intro x hx
    simp only [List.mem_reverse, List.mem_append] at hx
    exact hb x (List.mem_append.2 hx.symm)
  · rw [List.map_append, hbits] at hin
    obtain ⟨hl, hr⟩ := List.append_inj hin (by simp [hlvars])
    rw [hvars, hchild, List.map_append, List.map_reverse, List.map_reverse, hl, hr,
      List.reverse_reverse, List.reverse_reverse]

end

end Tables

open Tables in
/-- The circuit's hash agrees with the storage's: on whole inputs of fewer than `2^31` bits, on
blocks and on the two children of an inner node. No sum of a row overflows. -/
theorem circuit_hash_agrees {T : Tables} (hT : T.Valid) {p : ℕ} [Fact p.Prime] (hp : 2 ^ 33 < p)
    {env : Env} (henv : env.aMat = T.row) :
    (∀ input : List Bool, input.length < 2 ^ 31 → ∀ vars,
      Evaluates p env vars input (T.hashBits vars) (T.hash input).reverse) ∧
    (∀ block : List Bool, block.length ≤ numColumns → ∀ vars,
      Evaluates p env vars block (T.hashBlockVars vars) (T.hashBlock block).reverse) ∧
    (∀ left right : List Bool, left.length + right.length < 2 ^ 31 →
      ∀ lvars rvars : List Var, lvars.length = left.length →
      Evaluates p env (lvars ++ rvars) (left.reverse ++ right.reverse) (T.hashChildren lvars rvars)
        (T.hashPair left right).reverse) ∧
    ∀ (i : ℕ) (block : List Bool), block.length ≤ numColumns →
      T.rowSum i block = T.exactSum i block ∧ T.exactSum i block < 2 ^ maxRowBits block.length ∧
        T.exactSum i block < 2 ^ 32 :=
  ⟨fun _ hlen vars => hashBits_evaluates hT hp henv hlen vars,
    fun _ hlen vars => hashBlockVars_evaluates hT hp henv hlen vars,
    fun _ _ hlen _ _ hl => hashChildren_evaluates hT hp henv hlen hl,
    fun i _ hlen => rowSum_exact hT i hlen⟩

def mixedTables : Tables := ⟨fun i j => (5 * i + 3 * j + 1) % 2 ^ qBits, fun i => i + 1⟩

/-- An input of two blocks. -/
theorem circuit_hash_agrees_twoBlocks : Tables.room true < 7000 ∧
    Evaluates (mersenne 61) ⟨mixedTables.row, fun _ => [], 0, fun _ _ => [], fun _ => []⟩
      (List.replicate 7000 one) (List.replicate 7000 true)
      (mixedTables.hashBits (List.replicate 7000 one))
      (mixedTables.hash (List.replicate 7000 true)).reverse := by
  have : Fact (mersenne 61).Prime := ⟨lucas_lehmer_sufficiency 61 (by norm_num) (by norm_num)⟩
  have hvalid : mixedTables.Valid := fun _ _ => Nat.mod_lt _ (by decide)
  exact ⟨by decide, (circuit_hash_agrees hvalid (by norm_num [mersenne]) rfl).1 _
    (by rw [List.length_replicate]; decide) _⟩

/-! ## An input of `2^31` bits -/

/-- A prover whose database is empty. -/
def tableEnv (T : Tables) : Env where
  aMat := T.row
  ram _ := []
  numHashBits := outputBits
  siblingHash _ _ := []
  block _ := []

/-- The only entry of the matrix that is not `0` is in the column where the input starts in the
first block. -/
def firstInputColumn : Tables where
  aMat i j := if i = 0 ∧ j = headBits true then 1 else 0
  iv _ := 0

theorem firstInputColumn_valid : firstInputColumn.Valid := by
  intro i j
  unfold firstInputColumn
  dsimp only
  split <;> decide

namespace Tables

private theorem dot_from_firstInputColumn (xs : List ℤ) (k : ℕ) (hk : k ≤ headBits true) :
    ((xs.zipIdx k).map fun x => firstInputColumn.row 0 x.2 * x.1).sum =
      xs.getD (headBits true - k) 0 := by
  induction xs generalizing k with
  | nil => rfl
  | cons x xs ih =>
    simp only [List.zipIdx_cons, List.map_cons, List.sum_cons]
    rcases Nat.lt_or_ge k (headBits true) with hlt | hge
    · have hrow : firstInputColumn.row 0 k = 0 := by simp [row, firstInputColumn, hlt.ne]
      obtain ⟨d, hd⟩ := Nat.exists_eq_add_of_lt hlt
      rw [hrow, zero_mul, zero_add, ih (k + 1) hlt, show headBits true - k = d + 1 by omega,
        show headBits true - (k + 1) = d by omega, List.getD_cons_succ]
    · have heq : k = headBits true := le_antisymm hk hge
      have hrest : ((xs.zipIdx (k + 1)).map fun x => firstInputColumn.row 0 x.2 * x.1).sum = 0 := by
        refine List.sum_eq_zero fun y hy => ?_
        obtain ⟨x', hx', rfl⟩ := List.mem_map.1 hy
        have hpos := List.le_snd_of_mem_zipIdx hx'
        have hrow : firstInputColumn.row 0 x'.2 = 0 := by
          simp [row, firstInputColumn, show x'.2 ≠ headBits true by omega]
        rw [hrow, zero_mul]
      rw [hrest, heq, Nat.sub_self, List.getD_cons_zero]
      simp [row, firstInputColumn]

theorem dot_firstInputColumn (xs : List ℤ) :
    dot (firstInputColumn.row 0) xs = xs.getD (headBits true) 0 :=
  dot_from_firstInputColumn xs 0 (Nat.zero_le _)

theorem head_compress (T : Tables) (xs : List ℤ) :
    (T.compress xs).head? = some (dot (T.row 0) xs % 2) := by
  rw [compress, show numRows = 63 + 1 from rfl, List.range_succ_eq_map, List.flatMap_cons]
  rfl

/-- The storage copies no bit of an input of `2^31` bits. -/
theorem hash_of_length (T : Tables) {input : List Bool} (hlen : input.length = 2 ^ 31) :
    ∃ pre, pre.length = headBits true ∧ T.hash input = T.hashBlock (pre ++ [true]) := by
  have hbits : numInputBits (input.length - 0) (headBits true) = 0 := by
    rw [hlen]
    decide
  set pre := head true T.copyIVBits (copyLengthBits input.length) with hpre
  have hprefix : pre ++ [] <+: overwrite (overwrite (overwrite (List.replicate numColumns false) 0
      T.copyIVBits) outputBits (copyLengthBits input.length)) pre.length [] :=
    prefix_overwrite (prefix_head T.length_copyIVBits) []
  have hprelen : pre.length = headBits true :=
    length_head T.length_copyIVBits (length_copyLengthBits input.length)
  have hblock := take_overwrite hprefix [true]
  rw [List.append_nil, hprelen] at hblock
  refine ⟨pre, hprelen, ?_⟩
  rw [hash]
  conv_lhs => unfold hashLoop
  simp only [hbits, List.take_zero, Nat.add_zero]
  rw [dif_pos (headBits_lt true)]
  exact congrArg T.hashBlock hblock

/-- The first bit of the storage's hash is the stop bit, right after the length. -/
theorem head_hash_of_length {input : List Bool} (hlen : input.length = 2 ^ 31) :
    (ints (firstInputColumn.hash input)).head? = some 1 := by
  obtain ⟨pre, hpre, heq⟩ := firstInputColumn.hash_of_length hlen
  have hblock : (pre ++ [true]).length ≤ numColumns := by
    rw [List.length_append, hpre]
    exact headBits_lt true
  rw [heq, ← compress_ints firstInputColumn_valid hblock, head_compress, dot_firstInputColumn]
  have hget : (ints (pre ++ [true])).getD (headBits true) 0 = 1 := by
    have hlen' : (pre.map Bool.toInt).length = headBits true := by rw [List.length_map, hpre]
    rw [ints, List.map_append, ← hlen']
    simp
  rw [hget]
  rfl

/-- In a circuit the stop bit is further behind, and the first bit is one of the input. -/
theorem head_absorbFrom {length : ℕ} {cv xs : List ℤ} (hlen : xs.length = 2 ^ 31)
    (hxs : ∀ x ∈ xs, x = 0) :
    (firstInputColumn.absorbFrom length true cv xs).head? = some 0 := by
  have hroom : room true ≤ xs.length := by
    rw [hlen]
    decide
  obtain ⟨pre', hpre', heq⟩ : ∃ pre' : List ℤ, pre'.length = outputBits ∧
      firstInputColumn.absorbFrom length true cv xs = _ :=
    Format.absorb_eq_compress (F := firstInputColumn.intFormat) hroom fun l => length_compress l
  have hrest : xs.length - (xs.length - room true) % firstInputColumn.intFormat.space =
      2 ^ 31 - 3392 := by
    rw [hlen]
    decide
  rw [hrest] at heq
  have hdot : (pre' ++ xs.drop (2 ^ 31 - 3392) ++ [1]).getD (headBits true) 0 = 0 := by
    have hdrop : (xs.drop (2 ^ 31 - 3392)).length = 3392 := by rw [List.length_drop, hlen]; norm_num
    have hpos : headBits true - pre'.length < (xs.drop (2 ^ 31 - 3392)).length := by
      rw [hpre', hdrop]
      decide
    have hge : pre'.length ≤ headBits true := by
      rw [hpre']
      decide
    rw [List.append_assoc, List.getD_eq_getElem?_getD, List.getElem?_append_right hge,
      List.getElem?_append_left hpos, List.getElem?_eq_getElem hpos, Option.getD_some]
    exact hxs _ (List.mem_of_mem_drop (List.getElem_mem hpos))
  have hcompress : firstInputColumn.absorbFrom length true cv xs = firstInputColumn.compress
      (pre' ++ xs.drop (2 ^ 31 - 3392) ++ [1]) := heq
  rw [hcompress, head_compress, dot_firstInputColumn, hdot]
  rfl

end Tables

open Tables in
/-- On `2^31` zeros the two hashes differ. -/
theorem circuit_hash_differs_of_length : firstInputColumn.Valid ∧
    ¬ Evaluates (mersenne 61) (tableEnv firstInputColumn) (List.replicate (2 ^ 31) zero)
      (List.replicate (2 ^ 31) false) (firstInputColumn.hashBits (List.replicate (2 ^ 31) zero))
      (firstInputColumn.hash (List.replicate (2 ^ 31) false)).reverse := by
  refine ⟨firstInputColumn_valid, fun heval => ?_⟩
  have hlen : (List.replicate (2 ^ 31) false).length = 2 ^ 31 := List.length_replicate
  generalize hbs : List.replicate (2 ^ 31) false = bs at hlen heval
  generalize hvars : List.replicate (2 ^ 31) zero = vars at heval
  have hvlen : vars.length = 2 ^ 31 := by rw [← hvars, List.length_replicate]
  -- the assignment in which only `One` is not `0`
  obtain ⟨s, hs⟩ : ∃ s : Var → ℤ, Base s :=
    ⟨fun w => if w = one then 1 else 0, by decide, by decide⟩
  have hzero : vars.map s = ints bs := by
    rw [← hvars, ← hbs, ints, List.map_replicate, List.map_replicate, hs.zero]
    rfl
  have hxs : ∀ x ∈ ints bs, x = 0 := by
    intro x hx
    rw [← hbs, ints, List.map_replicate] at hx
    exact List.eq_of_mem_replicate hx
  have hbelow : ∀ x ∈ vars, x.Below 2 := by
    intro x hx
    rw [← hvars] at hx
    rw [List.eq_of_mem_replicate hx]
    exact Generator.Wire.below_fresh.2 two_pos
  have hlight : LightInput (head true (ints firstInputColumn.copyIVBits)
      (ints (copyLengthBits vars.length))) (room true) (ints bs) :=
    lightInput_of_bits (Bits.append.2 ⟨bits_ints _, bits_ints _⟩) (bits_ints _) _
  have hrun : Runs (machine (tableEnv firstInputColumn)) (firstInputColumn.hashBits vars) 2 s _ :=
    runs_hashLoopVars firstInputColumn_valid rfl vars.length hs le_rfl
      firstInputColumn.length_makeIVBits (below_makeIVBits le_rfl) hbelow
      (holds_int_iff.1 (holds_makeIVBits hs)) hzero hlight
  have hclaim := (heval.runs 2 s le_rfl hs hbelow hzero).post.2
  have heq := hclaim.symm.trans hrun.post.2
  rw [ints_reverse] at heq
  have hhead := congrArg List.head? (List.reverse_injective heq)
  rw [head_hash_of_length hlen, head_absorbFrom (by rw [length_ints, hlen]) hxs] at hhead
  exact absurd hhead (by decide)

end Pequin.Merkle
