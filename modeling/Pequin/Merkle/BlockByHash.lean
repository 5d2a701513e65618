import Pequin.Merkle.PathRuns

/-!
# Reading a block by its hash

The block that the prover supplies is compared with the expected hash after both hashes were
multiplied by the sum of the expected hash's field elements. The sum is `0` only for the hash whose
bits are all `0`, the null hash, which therefore matches every block.
-/

namespace Pequin.Merkle
open Generator TwosComplement

/-! ## The sum of the field elements -/

theorem pack_replicate_zero (numElts : ℕ) :
    pack numElts (List.replicate (numElts * hashFieldBits) 0) = List.replicate numElts 0 := by
  have helt : ∀ i ∈ List.range numElts,
      unsigned (eltBits numElts (List.replicate (numElts * hashFieldBits) 0) i).reverse = 0 := by
    intro i _
    rw [eltBits, List.drop_replicate, List.take_replicate, List.reverse_replicate]
    exact unsigned_replicate_zero _
  rw [pack, List.map_congr_left helt, List.map_const', List.length_range]

section
variable {numElts : ℕ} {bs : List ℤ} (hbs : Bits bs) (hlen : bs.length = numElts * hashFieldBits)
include hbs hlen

/-- The field elements of a hash are all `0` only if its bits are. -/
theorem pack_sum_eq_zero_iff : (pack numElts bs).sum = 0 ↔ ∀ b ∈ bs, b = 0 := by
  constructor
  · intro hsum
    have hnonneg : ∀ v ∈ pack numElts bs, 0 ≤ v := fun v hv => (pack_bounds hbs hlen v hv).1
    have hall : ∀ v ∈ pack numElts bs, v = 0 := fun v hv =>
      le_antisymm (hsum ▸ List.single_le_sum hnonneg v hv) (hnonneg v hv)
    have hpack : pack numElts bs = pack numElts (List.replicate (numElts * hashFieldBits) 0) := by
      rw [pack_replicate_zero]
      exact List.eq_replicate_iff.2 ⟨length_pack, hall⟩
    rw [pack_injective hbs (Bits.replicate (.inl rfl) _) hlen List.length_replicate hpack]
    exact fun b hb => List.eq_of_mem_replicate hb
  · intro hzero
    rw [List.eq_replicate_iff.2 ⟨hlen, hzero⟩, pack_replicate_zero, List.sum_replicate, smul_zero]

/-- The sum does not wrap. -/
theorem pack_sum_bounds : 0 ≤ (pack numElts bs).sum ∧
    (pack numElts bs).sum ≤ numElts * (2 ^ hashFieldBits - 1) := by
  have hbounds := pack_bounds hbs hlen
  refine ⟨List.sum_nonneg fun v hv => (hbounds v hv).1, ?_⟩
  have hle := List.sum_le_card_nsmul (pack numElts bs) (2 ^ hashFieldBits - 1)
    fun v hv => Int.le_sub_one_of_lt (hbounds v hv).2
  rwa [length_pack, nsmul_eq_mul] at hle

theorem cast_pack_sum_eq_zero_iff {p : ℕ} (hp : numElts * 2 ^ hashFieldBits < p) :
    (((pack numElts bs).sum : ℤ) : ZMod p) = 0 ↔ ∀ b ∈ bs, b = 0 := by
  rw [← pack_sum_eq_zero_iff hbs hlen]
  refine ⟨fun h => Residue.eq_zero_of_cast_eq_zero ?_ h, fun h => by rw [h, Int.cast_zero]⟩
  obtain ⟨h0, h1⟩ := pack_sum_bounds hbs hlen
  have hp' : (numElts : ℤ) * 2 ^ hashFieldBits < p := by exact_mod_cast hp
  rw [abs_of_nonneg h0]
  have hn : (0 : ℤ) ≤ numElts := Int.natCast_nonneg _
  nlinarith

end

/-- Lists of elements are told apart by their residues. -/
theorem pack_eq_of_cast_eq {numElts p : ℕ} (hp : 2 ^ hashFieldBits ≤ p) {bs bs' : List ℤ}
    (hbs : Bits bs) (hlen : bs.length = numElts * hashFieldBits) (hbs' : Bits bs')
    (hlen' : bs'.length = numElts * hashFieldBits)
    (heq : (pack numElts bs).map (Int.cast : ℤ → ZMod p) = (pack numElts bs').map Int.cast) :
    bs = bs' := by
  refine pack_injective hbs hbs' hlen hlen' (List.map_inj_left.2 fun i hi => ?_)
  have hmem : ∀ l : List ℤ, unsigned (eltBits numElts l i).reverse ∈ pack numElts l :=
    fun l => List.mem_map_of_mem hi
  obtain ⟨h0, h1⟩ := pack_bounds hbs hlen _ (hmem bs)
  obtain ⟨h0', h1'⟩ := pack_bounds hbs' hlen' _ (hmem bs')
  have hp' : (2 : ℤ) ^ hashFieldBits ≤ p := by exact_mod_cast hp
  refine Residue.eq_of_cast_eq (p := p) ?_ ?_
  · rw [abs_lt]
    constructor <;> omega
  · rw [pack, pack, List.map_map, List.map_map] at heq
    exact List.map_inj_left.1 heq i hi

/-! ## Every satisfying assignment -/

section
variable {h : Hasher} {S : h.Spec} {p : ℕ} [Fact p.Prime] {z : Var → ZMod p} (hS : S.Computes p)
  (hz : Base z)
include hz

theorem sound_multHash {hash : List Var} {val : Var} :
    Sound z (multHash hash val) fun r => r.map z = hash.map fun x => z x * z val := by
  refine (Sound.each _ fun x _ => sound_mult hz x val).mono fun r hr => ?_
  induction hr with
  | nil => rfl
  | cons hx _ ih => rw [List.map_cons, List.map_cons, hx, ih]

/-- The sum of the expected hash's elements is `0` only for the null hash. -/
theorem sound_hashSum (hp : h.numElts * 2 ^ hashFieldBits < p) {expected : List ℤ}
    (hbits : Bits expected) (hlen : expected.length = h.numHashBits) {elts : List Var}
    (helts : Holds z elts (pack h.numElts expected)) :
    Sound z (sum elts) fun r => z r = 0 ↔ ∀ b ∈ expected, b = 0 := by
  refine (sound_sum hz elts).mono fun r hr => ?_
  have hval : z r = (((pack h.numElts expected).sum : ℤ) : ZMod p) := by
    rw [hr, helts, Int.cast_list_sum]
  rw [hval, cast_pack_sum_eq_zero_iff hbits hlen hp]

include hS

/-- A block that passes the check has the expected hash, unless this is the null hash. -/
theorem sound_checkBlock (hp : h.numElts * 2 ^ hashFieldBits < p) {expected value : List ℤ}
    (hebits : Bits expected) (helen : expected.length = h.numHashBits) (hvbits : Bits value)
    {elts vars : List Var} (helts : Holds z elts (pack h.numElts expected))
    (hvars : Holds z vars value) : Sound z (checkBlock h elts vars) fun _ =>
      S.leaf value = expected ∨ ∀ b ∈ expected, b = 0 := by
  refine .bind (hS.leaf z vars value hz hvars (S.leafRange_of_bits hvbits)) fun valueHash hhash =>
    ?_
  refine .bind (sound_final hz _ hhash) fun actual hactual => ?_
  refine .bind (sound_hashSum hz hp hebits helen helts) fun r hr => ?_
  refine .bind (sound_multHash hz) fun scaled hscaled => .bind (sound_multHash hz)
    fun scaled' hscaled' => ?_
  have hlens : scaled'.length = scaled.length := by
    have h1 := congrArg List.length hscaled
    have h2 := congrArg List.length hscaled'
    rw [List.length_map, List.length_map] at h1 h2
    rw [h1, h2, helts.length_eq, hactual.length_eq, length_pack, length_pack]
  refine (sound_compareTo hz hlens).mono fun _ heq => ?_
  by_cases hzero : z r = 0
  · exact .inr (hr.1 hzero)
  · -- the elements are below the prime, so the scaled ones tell them apart
    left
    rw [hscaled, hscaled'] at heq
    have hpack : (pack h.numElts (S.leaf value)).map (Int.cast : ℤ → ZMod p) =
        (pack h.numElts expected).map Int.cast := by
      rw [← hactual, ← helts]
      have hmul : (elts.map z).map (· * z r) = (actual.map z).map (· * z r) := by
        rw [List.map_map, List.map_map]
        exact heq
      exact (List.map_injective_iff.2 (mul_left_injective₀ hzero) hmul).symm
    rcases Nat.eq_zero_or_pos h.numElts with h0 | hpos
    · have hnil : ∀ l : List ℤ, l.length = h.numHashBits → l = [] := by
        intro l hl
        rwa [Hasher.numHashBits, h0, Nat.zero_mul, List.length_eq_zero_iff] at hl
      rw [hnil _ (S.length_leaf value), hnil _ helen]
    · exact pack_eq_of_cast_eq ((Nat.le_mul_of_pos_left _ hpos).trans hp.le) (S.bits_leaf hvbits)
        (S.length_leaf value) hebits helen hpack

end

/-! ## The prover's assignment -/

section
variable (env : Env) {n : ℕ} {s : Var → ℤ}

theorem runs_ensureBit {x : Var} (hs : Base s) (hx : x.Below n) (hb : IsBit (s x)) :
    Runs (machine env) (ensureBit x) n s fun _ m s' => m = n ∧ s' = s := by
  have hbelow : TermsBelow n [t x] ∧ TermsBelow n [tn x] := by simpa [TermsBelow, t, tn] using hx
  refine .row ⟨termsBelow_matTerms hbelow.1, termsBelow_matTerms hbelow.1,
    termsBelow_matTerms hbelow.2⟩ ?_ ⟨rfl, rfl⟩
  rw [Row.eval, lin_matTerms hs, lin_matTerms hs, lin_t, lin_tn, lin_nil]
  rcases hb with hb | hb <;> rw [hb] <;> ring

theorem runs_ensureBits {vars : List Var} (hs : Base s) (hvars : ∀ x ∈ vars, x.Below n)
    (hbits : Bits (vars.map s)) :
    Runs (machine env) (Gen.each ensureBit vars) n s fun _ m s' => m = n ∧ s' = s := by
  induction vars with
  | nil => exact .pure ⟨rfl, rfl⟩
  | cons x vars ih =>
    obtain ⟨hx, hvars⟩ := List.forall_mem_cons.1 hvars
    obtain ⟨hb, hbits⟩ := Bits.cons.1 hbits
    refine .bind (runs_ensureBit env hs hx hb) fun _ m s' _ _ ⟨hm, hs'⟩ => ?_
    subst hm hs'
    exact .bind (ih hvars hbits) fun _ _ _ _ _ hpost => .pure hpost

theorem runs_multHash {hash : List Var} {val : Var} (hs : Base s) (hn : 2 ≤ n)
    (hhash : ∀ x ∈ hash, x.Below n) (hval : val.Below n) :
    Runs (machine env) (multHash hash val) n s fun r m s' =>
      (∀ w ∈ r, w.Below m) ∧ r.map s' = hash.map fun x => s x * s val := by
  refine Runs.each_wire _ fun x hx m s' hm hs' => ?_
  have hrun := runs_mult env (hs.of_agree hn hs') (hn.trans hm)
    ((hhash x hx).mono hm) (hval.mono hm)
  rwa [hs' x (hhash x hx), hs' val hval] at hrun

variable {env} {h : Hasher} {S : h.Spec} (hS : S.Executes env)
include hS

/-- A block with the expected hash passes the check, and so does every block if the expected hash is
the null hash. -/
theorem runs_checkBlock (hs : Base s) (hn : 2 ≤ n) {expected value : List ℤ}
    (hebits : Bits expected) (helen : expected.length = h.numHashBits) (hvbits : Bits value)
    {elts vars : List Var} (heb : ∀ w ∈ elts, w.Below n) (hvb : ∀ w ∈ vars, w.Below n)
    (helts : elts.map s = pack h.numElts expected) (hvars : vars.map s = value)
    (hmatch : S.leaf value = expected ∨ ∀ b ∈ expected, b = 0) :
    Runs (machine env) (checkBlock h elts vars) n s fun _ _ _ => True := by
  have hleaf := hS.leaf n s vars hn hs hvb (hvars ▸ S.leafRange_of_bits hvbits)
  rw [hvars] at hleaf
  refine .bind hleaf fun valueHash m₁ s₁ hm₁ hs₁ ⟨hhb, hhash⟩ => ?_
  refine .bind (runs_final env _ (hs.of_agree hn hs₁) (hn.trans hm₁) hhb)
    fun actual m₂ s₂ hm₂ hs₂ ⟨hab, hactual⟩ => ?_
  rw [hhash] at hactual
  have hagree₂ : Agree n s s₂ := hs₁.trans hs₂ hm₁
  have hle₂ : n ≤ m₂ := hm₁.trans hm₂
  refine .bind (runs_sum env (hs.of_agree hn hagree₂) (hn.trans hle₂)
    fun w hw => (heb w hw).mono hle₂) fun r m₃ s₃ hm₃ hs₃ ⟨hrb, hr⟩ => ?_
  rw [hagree₂.map_eq heb, helts] at hr
  have hagree₃ : Agree n s s₃ := hagree₂.trans hs₃ hle₂
  have hle₃ : n ≤ m₃ := hle₂.trans hm₃
  refine .bind (runs_multHash env (hs.of_agree hn hagree₃) (hn.trans hle₃)
    (fun w hw => (hab w hw).mono hm₃) hrb) fun scaled m₄ s₄ hm₄ hs₄ ⟨hsb, hscaled⟩ => ?_
  have hagree₄ : Agree n s s₄ := hagree₃.trans hs₄ hle₃
  have hle₄ : n ≤ m₄ := hle₃.trans hm₄
  refine .bind (runs_multHash env (hs.of_agree hn hagree₄) (hn.trans hle₄)
    (fun w hw => (heb w hw).mono hle₄) (hrb.mono hm₄)) fun scaled' m₅ s₅ hm₅ hs₅ ⟨hsb', hscaled'⟩ =>
      ?_
  refine (runs_compareTo env (hs.of_agree hn (hagree₄.trans hs₅ hle₄)) hsb'
    (fun w hw => (hsb w hw).mono hm₅) ?_).mono fun _ _ _ _ _ _ => trivial
  have hleft : scaled'.map s₅ = (pack h.numElts expected).map (· * s₃ r) := by
    rw [hscaled', hs₄ r hrb, ← helts, ← hagree₄.map_eq heb, List.map_map]
    rfl
  have hright : scaled.map s₅ = (pack h.numElts (S.leaf value)).map (· * s₃ r) := by
    rw [hs₅.map_eq hsb, hscaled, ← hactual, ← hs₃.map_eq hab, List.map_map]
    rfl
  rw [hleft, hright]
  rcases hmatch with hmatch | hzero
  · rw [hmatch]
  · rw [hr, (pack_sum_eq_zero_iff hebits helen).2 hzero]
    simp only [mul_zero, List.map_const', length_pack]

end

/-- A block that matches has a satisfying assignment. -/
theorem exists_satisfies_getBlockByHash {h : Hasher} {S : h.Spec} {env : Env} (hS : S.Executes env)
    (dbSize : ℕ) {expected value : List ℤ} (hblock : ∀ bs, env.block bs = value)
    (hebits : Bits expected) (helen : expected.length = h.numHashBits) (hvbits : Bits value)
    (hmatch : S.leaf value = expected ∨ ∀ b ∈ expected, b = 0) :
    ∃ s : Var → ℤ, Satisfies s (template h dbSize value.length .getBlockByHash) ∧
      (genVars h.numHashBits .inHash).map s = expected ∧
      (genVars value.length .value).map s = value := by
  have hbase := base_initial 0 value expected []
  have hexp : (genVars h.numHashBits .inHash).map (initial 0 value expected []) = expected :=
    map_genVars (fun _ => rfl) helen
  have hval : (genVars value.length .value).map (initial 0 value expected []) = value :=
    map_genVars (fun _ => rfl) rfl
  have hrun : Runs (machine env) (genOp h dbSize value.length .getBlockByHash) 2
      (initial 0 value expected []) fun _ _ _ => True := by
    refine .bind (.cmd (Q := fun _ m s' => m = 2 ∧ s' = initial 0 value expected []) ?_ ⟨rfl, rfl⟩)
      fun _ m s _ _ hms => ?_
    · have hvalues : (Cmd.getBlockByHash (genVars h.numHashBits .inHash)
          (genVars value.length .value)).values env (initial 0 value expected []) =
            (genVars value.length .value).map (initial 0 value expected []) := by
        rw [hval]
        simp only [Cmd.values, hblock, genVars, List.length_map, List.length_range]
        refine List.ext_getElem (by simp) fun i h1 h2 => ?_
        simp [List.getElem?_eq_getElem h2]
      show writeAll (genVars value.length .value) _ _ = _
      rw [hvalues, writeAll_self]
    obtain ⟨rfl, rfl⟩ := hms
    refine .bind (runs_final env _ hbase le_rfl below_genVars) fun elts m₁ s₁ hm₁ hs₁ helts => ?_
    obtain ⟨heb, helts⟩ := helts
    rw [hexp] at helts
    have hval₁ : (genVars value.length .value).map s₁ = value := by
      rw [hs₁.map_eq below_genVars, hval]
    refine .bind (runs_ensureBits env (hbase.of_agree le_rfl hs₁) below_genVars (by rwa [hval₁]))
      fun _ m s _ _ hms => ?_
    obtain ⟨rfl, rfl⟩ := hms
    exact .bind (runs_checkBlock hS (hbase.of_agree le_rfl hs₁) hm₁ hebits helen hvbits heb
      below_genVars helts hval₁ hmatch) fun _ _ _ _ _ _ => .pure trivial
  refine ⟨_, satisfies_template.2 ⟨hbase.of_agree le_rfl hrun.agree, hrun.rows⟩, ?_, ?_⟩
  · rw [hrun.agree.map_eq below_genVars, hexp]
  · rw [hrun.agree.map_eq below_genVars, hval]

/-- A prover whose database answers every hash with one block. -/
def blockEnv (T : Tables) (value : List ℤ) : Env where
  aMat := T.row
  ram _ := []
  numHashBits := 0
  siblingHash _ _ := []
  block _ := value

theorem HashFunc.two_pow_le {T : Tables} (f : HashFunc) {p : ℕ}
    (hp : (f.hasher T).numElts * 2 ^ hashFieldBits < p) : 2 ^ 32 ≤ p := by
  have hle : 2 ^ 32 ≤ 2 ^ hashFieldBits := Nat.pow_le_pow_right two_pos (by decide)
  exact (hle.trans (Nat.le_mul_of_pos_left _ f.numElts_pos)).trans hp.le

/-- With bits for the expected hash and the block, the constraints of reading a block by its hash
can be satisfied exactly if the block has the hash or the hash is the null hash. The factor of the
comparison is `0` only for the null hash. -/
theorem getBlockByHash_satisfiable_iff {T : Tables} (hT : T.Valid) (f : HashFunc) {p : ℕ}
    [Fact p.Prime] (hp : (f.hasher T).numElts * 2 ^ hashFieldBits < p) (dbSize : ℕ)
    {expected value : List ℤ} (hebits : Bits expected)
    (helen : expected.length = (f.hasher T).numHashBits) (hvbits : Bits value) :
    ((∃ z : Var → ZMod p,
        Satisfies z (template (f.hasher T) dbSize value.length .getBlockByHash) ∧
        Holds z (genVars (f.hasher T).numHashBits .inHash) expected ∧
        Holds z (genVars value.length .value) value) ↔
      (f.spec T).leaf value = expected ∨ ∀ b ∈ expected, b = 0) ∧
    ∀ (z : Var → ZMod p) (elts : List Var), Base z →
      Holds z elts (pack (f.hasher T).numElts expected) →
      Sound z (sum elts) fun hashSum => z hashSum = 0 ↔ ∀ b ∈ expected, b = 0 := by
  refine ⟨⟨?_, fun hmatch => ?_⟩, fun z elts hz helts => sound_hashSum hz hp hebits helen helts⟩
  · rintro ⟨z, hsat, hexp, hval⟩
    obtain ⟨hz, hrows⟩ := satisfies_template.1 hsat
    have hsound : Sound z (getBlockByHashOp (f.hasher T) (genVars (f.hasher T).numHashBits .inHash)
        (genVars value.length .value)) fun _ =>
          (f.spec T).leaf value = expected ∨ ∀ b ∈ expected, b = 0 := by
      refine .bind (Sound.trivial _) fun _ _ => .bind (sound_final hz _ hexp) fun elts helts => ?_
      refine .bind (Sound.trivial _) fun _ _ => ?_
      exact .bind (sound_checkBlock (f.spec_computes hT (f.two_pow_le hp)) hz hp hebits helen hvbits
        helts hval) fun _ hmatch => .pure hmatch
    exact hsound 2 hrows
  · have hexec : (f.spec T).Executes (blockEnv T value) := f.spec_executes hT rfl
    obtain ⟨s, hsat, hexp, hval⟩ :=
      exists_satisfies_getBlockByHash hexec dbSize (fun _ => rfl) hebits helen hvbits hmatch
    exact ⟨_, hsat.cast (ZMod p), holds_cast hexp _, holds_cast hval _⟩

theorem getBlockByHash_satisfiable_nullHash : ∃ z : Var → ZMod (mersenne 89),
    Satisfies z (template nullHash 1 1 .getBlockByHash) ∧
    Holds z (genVars nullHash.numHashBits .inHash) (List.replicate 128 0) ∧
    Holds z (genVars 1 .value) [1] := by
  have : Fact (mersenne 89).Prime := ⟨lucas_lehmer_sufficiency 89 (by norm_num) (by norm_num)⟩
  have hvalid : (Tables.mk (fun _ _ => 0) fun _ => 0).Valid := fun _ _ => Nat.two_pow_pos _
  have hp : nullHash.numElts * 2 ^ hashFieldBits < mersenne 89 := by
    norm_num [mersenne, nullHash, hashFieldBits]
  have hebits : Bits (List.replicate 128 0) := Bits.replicate (.inl rfl) _
  have helen : (List.replicate 128 (0 : ℤ)).length = nullHash.numHashBits := List.length_replicate
  have hvbits : Bits [1] := by simp [Bits, IsBit]
  have hiff := (getBlockByHash_satisfiable_iff hvalid .null hp 1 hebits helen hvbits).1
  exact hiff.2 (.inr fun _ hb => List.eq_of_mem_replicate hb)

end Pequin.Merkle
