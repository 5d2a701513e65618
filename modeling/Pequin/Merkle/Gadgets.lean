import Pequin.Lib.Residue
import Pequin.Merkle.Builder

/-!
# The gadgets of the constraint builder

For each function of the builder: what its rows say about every assignment, and that the prover's
commands make them true. The rows are over a field, the prover's values are integers.
-/

namespace Pequin.Merkle
open Generator TwosComplement

section
variable {R : Type} [CommRing R]

/-- The builder's two constants have their values. -/
structure Base (z : Var → R) : Prop where
  zero : z zero = 0
  one : z one = 1

/-- Variables that hold the residues of integers. -/
def Holds (z : Var → R) (xs : List Var) (vs : List ℤ) : Prop := xs.map z = vs.map Int.cast

variable {z : Var → R}

variable {xs : List Var} {vs : List ℤ}

theorem Holds.length_eq (h : Holds z xs vs) :
    xs.length = vs.length := by simpa using congrArg List.length h

@[simp] theorem holds_nil : Holds z [] [] := rfl

@[simp] theorem holds_cons {x : Var} {v : ℤ} :
    Holds z (x :: xs) (v :: vs) ↔ z x = v ∧ Holds z xs vs := by simp [Holds]

theorem Holds.append {xs xs' : List Var} {vs vs' : List ℤ} (h : Holds z xs vs)
    (h' : Holds z xs' vs') : Holds z (xs ++ xs') (vs ++ vs') := by
  unfold Holds at *
  rw [List.map_append, List.map_append, h, h']

theorem Holds.reverse (h : Holds z xs vs) : Holds z xs.reverse vs.reverse := by
  unfold Holds at *
  rw [List.map_reverse, List.map_reverse, h]

theorem Holds.take (h : Holds z xs vs) (k : ℕ) : Holds z (xs.take k) (vs.take k) := by
  unfold Holds at *
  rw [List.map_take, List.map_take, h]

theorem Holds.drop (h : Holds z xs vs) (k : ℕ) : Holds z (xs.drop k) (vs.drop k) := by
  unfold Holds at *
  rw [List.map_drop, List.map_drop, h]

/-- Leaving out the terms of `Zero` does not change a sum. -/
theorem lin_matTerms (h : Base z) (ts : Terms Ext) : lin z (matTerms ts) = lin z ts := by
  induction ts with
  | nil => rfl
  | cons a ts ih =>
    obtain ⟨c, w⟩ := a
    unfold matTerms at ih ⊢
    by_cases hw : w = some zero
    · rw [List.filter_cons_of_neg (by simp [hw]), ih, lin_cons, hw, Option.elim_some, h.zero,
        mul_zero, zero_add]
    · rw [List.filter_cons_of_pos (by simp [hw]), lin_cons, lin_cons, ih]

theorem lin_t (x : Var) (ts : Terms Ext) : lin z (t x :: ts) = z x + lin z ts := by simp [t]

theorem lin_map_t (values : List Var) : lin z (values.map t) = (values.map z).sum := by
  induction values with
  | nil => rfl
  | cons x values ih => rw [List.map_cons, lin_t, ih, List.map_cons, List.sum_cons]

theorem lin_tn (x : Var) (ts : Terms Ext) : lin z (tn x :: ts) = -z x + lin z ts := by simp [tn]

theorem sound_addCons (h : Base z) (a b c : Terms Ext) :
    Sound z (addCons a b c) fun _ => lin z a * lin z b + lin z c = 0 :=
  (Sound.row _).mono fun _ h' => by simpa [Row.eval, lin_matTerms h] using h'

theorem weights_cons (x : Var) (xi : List Var) :
    weights (x :: xi) = (2 ^ xi.length, x) :: weights xi := by
  simp only [weights, List.zipIdx_cons, List.map_cons, List.length_cons, Nat.add_sub_cancel,
    Nat.sub_zero, List.cons.injEq, true_and, Nat.zero_add]
  rw [List.zipIdx_succ, List.map_map]
  refine List.map_congr_left fun v _ => ?_
  simp only [Function.comp_apply]
  congr 2
  omega

/-- The sum of weighted bits is the number they are the digits of. -/
theorem lin_weights {xi : List Var} {bs : List ℤ} (h : Holds z xi bs) :
    lin z ((weights xi).map fun v => (v.1, some v.2)) = ((unsigned bs.reverse : ℤ) : R) := by
  induction xi generalizing bs with
  | nil =>
    cases bs with
    | nil => simp [weights, unsigned]
    | cons b bs => cases h
  | cons x xi ih =>
    cases bs with
    | nil => cases h
    | cons b bs =>
      obtain ⟨hx, hxi⟩ := holds_cons.1 h
      rw [weights_cons, List.map_cons, lin_cons, ih hxi, List.reverse_cons, unsigned_concat,
        List.length_reverse, ← hxi.length_eq, Option.elim_some, hx]
      push_cast
      ring

private theorem lin_rowTerms_from (h : Base z) (row : ℕ → ℤ) {vector : List Var}
    (hv : Holds z vector vs) (k : ℕ) :
    lin z (((vector.zipIdx k).filter fun v => ¬ (v.1 = zero ∨ row v.2 = 0) ∧ v.1 ≠ one).map
        fun v => (row v.2, some v.1)) +
      ((((vector.zipIdx k).filter fun v => ¬ (v.1 = zero ∨ row v.2 = 0) ∧ v.1 = one).map
        fun v => row v.2).sum : ℤ) = (((vs.zipIdx k).map fun x => row x.2 * x.1).sum : ℤ) := by
  induction vector generalizing vs k with
  | nil =>
    cases vs with
    | nil => simp
    | cons v vs => cases hv
  | cons x vector ih =>
    cases vs with
    | nil => cases hv
    | cons v vs =>
      obtain ⟨hx, hv⟩ := holds_cons.1 hv
      have hrest := ih hv (k + 1)
      simp only [List.zipIdx_cons, List.map_cons, List.sum_cons, Int.cast_add,
        Int.cast_mul, ← hrest]
      by_cases hzero : x = zero ∨ row k = 0
      · have hterm : (row k : R) * v = 0 := by
          rcases hzero with rfl | hrow
          · rw [← hx, h.zero, mul_zero]
          · rw [hrow, Int.cast_zero, zero_mul]
        rw [List.filter_cons_of_neg (by simp [hzero]), List.filter_cons_of_neg (by simp [hzero]),
          hterm, zero_add]
      · by_cases hone : x = one
        · subst hone
          rw [List.filter_cons_of_neg (by simp), List.filter_cons_of_pos (by simp [hzero]),
            List.map_cons, List.sum_cons, ← hx, h.one]
          push_cast
          ring
        · rw [List.filter_cons_of_pos (by simp [hzero, hone]), List.filter_cons_of_neg
            (by simp [hone]), List.map_cons, lin_cons, Option.elim_some, hx, add_assoc]

/-- The constraint of a row is its inner product with the vector. -/
theorem lin_rowTerms (h : Base z) (row : ℕ → ℤ) {vector : List Var} (hv : Holds z vector vs) :
    lin z (rowTerms row vector) + (constPart row vector : R) = (dot row vs : R) :=
  lin_rowTerms_from h row hv 0

end

/-! ## Every satisfying assignment -/

section
variable {p : ℕ} [Fact p.Prime] {z : Var → ZMod p}

private theorem forall_mem_of_forall₂ {α β : Type} {Q : β → Prop} {as : List α} {bs : List β}
    (h : List.Forall₂ (fun _ b => Q b) as bs) : ∀ b ∈ bs, Q b := by
  induction h with
  | nil => exact List.forall_mem_nil _
  | cons hb _ ih => exact List.forall_mem_cons.2 ⟨hb, ih⟩

theorem exists_bits {xs : List Var} (h : ∀ x ∈ xs, z x = 0 ∨ z x = 1) :
    ∃ bs, Bits bs ∧ Holds z xs bs := by
  induction xs with
  | nil => exact ⟨[], List.forall_mem_nil _, holds_nil⟩
  | cons x xs ih =>
    obtain ⟨hx, hxs⟩ := List.forall_mem_cons.1 h
    obtain ⟨bs, hbs, hholds⟩ := ih hxs
    rcases hx with hx | hx
    · exact ⟨0 :: bs, Bits.cons.2 ⟨.inl rfl, hbs⟩, holds_cons.2 ⟨by simpa using hx, hholds⟩⟩
    · exact ⟨1 :: bs, Bits.cons.2 ⟨.inr rfl, hbs⟩, holds_cons.2 ⟨by simpa using hx, hholds⟩⟩

variable (h : Base z)
include h

theorem sound_ensureBit (x : Var) : Sound z (ensureBit x) fun _ => z x = 0 ∨ z x = 1 := by
  refine (sound_addCons h _ _ _).mono fun _ h' => Residue.bool_of_mul_sub_one ?_
  simp only [lin_t, lin_tn, lin_nil] at h'
  linear_combination h'

theorem sound_sumOfPowers (xi : List Var) (x : Var) (printPoly : Bool) :
    Sound z (sumOfPowers xi x printPoly) fun _ =>
      ∀ bs, Holds z xi bs → z x = ((unsigned bs.reverse : ℤ) : ZMod p) := by
  refine .bind (sound_addCons h _ _ _) fun _ h' => (Sound.trivial _).mono fun _ _ bs hbs => ?_
  rw [lin_nil, zero_mul, zero_add, lin_append, lin_weights hbs, lin_tn, lin_nil] at h'
  linear_combination -h'

/-- The bits of a split are bits of a number that is the residue of the operand. -/
theorem sound_split (x : Var) (n : ℕ) : Sound z (split x n) fun xi =>
    ∃ bs, Bits bs ∧ bs.length = n ∧ Holds z xi bs ∧ z x = ((unsigned bs.reverse : ℤ) : ZMod p) := by
  refine .bind (Sound.each (P := fun _ v => z v = 0 ∨ z v = 1) _ fun _ _ => ?_) fun xi hxi => ?_
  · refine .bind (Sound.trivial _) fun v _ => .bind (sound_ensureBit h v) fun _ hv => .pure hv
  · obtain ⟨bs, hbs, hholds⟩ := exists_bits (forall_mem_of_forall₂ hxi)
    refine .bind (Sound.trivial _) fun _ _ => .bind (sound_sumOfPowers h xi x false) fun _ hsum =>
      ?_
    refine .pure ⟨bs, hbs, ?_, hholds, hsum bs hholds⟩
    rw [← hholds.length_eq, ← hxi.length_eq, List.length_range]

/-- A split of a number that fits has the number's bits. -/
theorem sound_split_of_eq {x : Var} {n : ℕ} {v : ℤ} (hp : 2 ^ n ≤ p) (h0 : 0 ≤ v) (hv : v < 2 ^ n)
    (hx : z x = v) : Sound z (split x n) fun xi => Holds z xi (bitsOf n v).reverse := by
  refine (sound_split h x n).mono fun xi ⟨bs, hbs, hlen, hholds, hval⟩ => ?_
  obtain ⟨hlo, hhi⟩ := unsigned_bounds hbs.reverse
  rw [List.length_reverse, hlen] at hhi
  have hpz : (2 : ℤ) ^ n ≤ p := by exact_mod_cast hp
  have hval' : v = unsigned bs.reverse := by
    refine Residue.eq_of_cast_eq (p := p) ?_ (hx.symm.trans hval)
    rw [abs_lt]
    constructor <;> linarith
  have hbits := bitsOf_unsigned hbs.reverse
  rw [List.length_reverse, hlen] at hbits
  rw [hval', hbits, List.reverse_reverse]
  exact hholds

theorem sound_modBits {x : Var} {n l : ℕ} {v : ℤ} (hp : 2 ^ n ≤ p) (h0 : 0 ≤ v) (hv : v < 2 ^ n)
    (hl : l ≤ n) (hx : z x = v) :
    Sound z (modBits x n l) fun xi => Holds z xi (bitsOf l v).reverse := by
  refine .bind (sound_split_of_eq h hp h0 hv hx) fun xi hxi => .pure ?_
  have hdrop := hxi.drop (n - l)
  rw [List.drop_reverse, length_bitsOf, Nat.sub_sub_self hl, take_bitsOf hl] at hdrop
  exact hdrop

theorem sound_combine (xi : List Var) : Sound z (combine xi) fun x =>
    ∀ bs, Holds z xi bs → z x = ((unsigned bs.reverse : ℤ) : ZMod p) :=
  .bind (Sound.trivial _) fun x _ => .bind (sound_sumOfPowers h xi x true) fun _ hx => .pure hx

theorem sound_assignment (y x : Var) : Sound z (assignment y x) fun _ => z x = z y := by
  refine .bind (sound_addCons h _ _ _) fun _ h' => (Sound.trivial _).mono fun _ _ => ?_
  simp only [lin_t, lin_tn, lin_nil] at h'
  linear_combination h'

/-- A new variable is what its row says. -/
theorem sound_define {a b : Terms Ext} {c : Var → Terms Ext} {p : CmdPoly} {Q : Var → Prop}
    (hrow : ∀ x, lin z a * lin z b + lin z (c x) = 0 → Q x) :
    Sound z (do
      let x ← Gen.fresh
      addCons a b (c x)
      Gen.cmd (.poly x p)
      pure x : Gen Var) Q :=
  .bind (Sound.trivial _) fun x _ => .bind (sound_addCons h _ _ _) fun _ h' =>
    .bind (Sound.trivial _) fun _ _ => .pure (hrow x h')

theorem sound_ifThenElse (choiceBit cond1 cond2 : Var) :
    Sound z (ifThenElse choiceBit cond1 cond2) fun result =>
      z result = z choiceBit * (z cond1 - z cond2) + z cond2 := by
  refine sound_define h fun result h' => ?_
  simp only [lin_t, lin_tn, lin_nil] at h'
  linear_combination -h'

theorem sound_xorBit (x y : Var) :
    Sound z (xorBit x y) fun r => z r = -2 * z x * z y + z x + z y := by
  refine sound_define h fun r h' => ?_
  simp only [lin_t, lin_tn, lin_nil] at h'
  rw [lin_cons, Option.elim_some, lin_nil] at h'
  push_cast at h'
  linear_combination -h'

theorem sound_sum (values : List Var) : Sound z (sum values) fun r => z r = (values.map z).sum := by
  refine sound_define h fun r h' => ?_
  rw [lin_nil, zero_mul, zero_add, lin_append, lin_map_t, lin_tn, lin_nil] at h'
  linear_combination -h'

theorem sound_mult (x y : Var) : Sound z (mult x y) fun r => z r = z x * z y := by
  refine sound_define h fun r h' => ?_
  simp only [lin_t, lin_tn, lin_nil] at h'
  linear_combination -h'

omit h in
/-- The results of a loop over two lists. -/
theorem holds_zipWith {f : ℤ → ℤ → ℤ} {xs ys rs : List Var} {vs ws : List ℤ} (h1 : Holds z xs vs)
    (h2 : Holds z ys ws) (hrs : List.Forall₂ (fun c r => ∀ v w : ℤ, z c.1 = v → z c.2 = w →
      z r = (f v w : ZMod p)) (xs.zip ys) rs) : Holds z rs (List.zipWith f vs ws) := by
  induction xs generalizing ys rs vs ws with
  | nil =>
    obtain rfl : vs = [] := List.length_eq_zero_iff.1 h1.length_eq.symm
    cases hrs
    exact holds_nil
  | cons x xs ih =>
    cases vs with
    | nil => cases h1
    | cons v vs =>
      cases ys with
      | nil =>
        obtain rfl : ws = [] := List.length_eq_zero_iff.1 h2.length_eq.symm
        cases hrs
        exact holds_nil
      | cons y ys =>
        cases ws with
        | nil => cases h2
        | cons w ws =>
          obtain ⟨hv, h1⟩ := holds_cons.1 h1
          obtain ⟨hw, h2⟩ := holds_cons.1 h2
          cases hrs with
          | cons hr hrs => exact holds_cons.2 ⟨hr v w hv hw, ih h1 h2 hrs⟩

theorem sound_xor {xi yi : List Var} {vs ws : List ℤ} (h1 : Holds z xi vs) (h2 : Holds z yi ws) :
    Sound z (xor xi yi) fun rs => Holds z rs (List.zipWith (fun x y =>
      -2 * x * y + x + y) vs ws) := by
  refine (Sound.each _ fun c _ => (sound_xorBit h c.1 c.2).mono fun r hr v w hv hw => ?_).mono
    fun rs hrs => holds_zipWith h1 h2 hrs
  rw [hr, hv, hw]
  push_cast
  ring

omit h in
private theorem zipWith_select {b : ℤ} (hb : IsBit b) {vs ws : List ℤ}
    (hlen : vs.length = ws.length) :
    List.zipWith (fun v w => b * (v - w) + w) vs ws = if b = 1 then vs else ws := by
  rw [← List.map_uncurry_zip_eq_zipWith]
  rcases hb with rfl | rfl
  · rw [if_neg (by decide)]
    exact (List.map_congr_left fun c _ => by simp [Function.uncurry]).trans
      (List.map_snd_zip hlen.ge)
  · rw [if_pos rfl]
    exact (List.map_congr_left fun c _ => by simp [Function.uncurry]).trans
      (List.map_fst_zip hlen.le)

/-- A choice bit that is set selects the first list, one that is not selects the second. -/
theorem sound_ifThenElseArray {choiceBit : Var} {b : ℤ} (hb : IsBit b) (hz : z choiceBit = b)
    {cond1 cond2 : List Var} {vs ws : List ℤ} (h1 : Holds z cond1 vs) (h2 : Holds z cond2 ws)
    (hlen : vs.length = ws.length) : Sound z (ifThenElseArray choiceBit cond1 cond2) fun xs =>
      Holds z xs (if b = 1 then vs else ws) := by
  rw [← zipWith_select hb hlen]
  refine (Sound.each _ fun c _ => (sound_ifThenElse h choiceBit c.1 c.2).mono
    fun r hr v w hv hw => ?_).mono fun rs hrs => holds_zipWith h1 h2 hrs
  rw [hr, hz, hv, hw]
  push_cast
  ring

theorem sound_matrixVectorMul (matrix : ℕ → ℕ → ℤ) {vector : List Var} {vs : List ℤ}
    (hv : Holds z vector vs) (numRows : ℕ) : Sound z (matrixVectorMul matrix vector numRows)
      fun xs => Holds z xs ((List.range numRows).map fun i => dot (matrix i) vs) := by
  refine .bind (Sound.each (P := fun i x => z x = (dot (matrix i) vs : ZMod p)) _ fun i _ => ?_)
    fun xs hxs => .bind (Sound.trivial _) fun _ _ => .pure ?_
  · refine .bind (Sound.trivial _) fun x _ => .bind (sound_addCons h _ _ _) fun _ h' => .pure ?_
    rw [lin_nil, zero_mul, zero_add, lin_append, lin_cons, Option.elim_none, lin_tn, lin_nil] at h'
    linear_combination lin_rowTerms h (matrix i) hv - h'
  · unfold Holds
    generalize List.range numRows = rows at hxs
    induction hxs with
    | nil => rfl
    | cons hx _ ih => rw [List.map_cons, List.map_cons, List.map_cons, hx, ih]

end

/-! ## The prover's assignment -/

section
variable (env : Env) {n : ℕ} {s : Var → ℤ}

theorem Base.of_agree {R : Type} [CommRing R] {s s' : Var → R} (h : Base s) (hn : 2 ≤ n)
    (hs : Agree n s s') : Base s' :=
  ⟨(hs Merkle.zero (Nat.lt_of_lt_of_le two_pos hn)).trans h.zero,
    (hs Merkle.one (Nat.lt_of_lt_of_le one_lt_two hn)).trans h.one⟩

theorem termsBelow_matTerms {ts : Terms Ext} (h : TermsBelow n ts) : TermsBelow n (matTerms ts) :=
  fun a ha => h a (List.mem_of_mem_filter ha)

theorem termsBelow_append_tn {ts : Terms Ext} {x : Var} (h : TermsBelow n ts) (hx : x.Below n) :
    TermsBelow n (ts ++ [tn x]) :=
  List.forall_mem_append.2 ⟨h, by simpa [tn] using hx⟩

theorem holds_int_iff {s : Var → ℤ} {xs : List Var} {vs : List ℤ} :
    Holds s xs vs ↔ xs.map s = vs := by
  have hcast : vs.map (Int.cast : ℤ → ℤ) = vs := List.map_id vs
  rw [Holds, hcast]

theorem holds_int (s : Var → ℤ) (xs : List Var) : Holds s xs (xs.map s) := holds_int_iff.2 rfl

/-- New variables that one command writes. -/
theorem runs_block {α : Type} {g : Gen α} {c : Cmd} {k : ℕ} {vs : List ℤ}
    {Q : α → ℕ → (Var → ℤ) → Prop} (hcmds : (g n).cmds = [c]) (hnext : (g n).next = n + k)
    (htargets : c.targets env = block n k) (hvals : c.values env s = vs) (hlen : vs.length = k)
    (hbelow : ∀ r ∈ (g n).rows, r.Below (n + k))
    (hrows : ∀ s', Agree n s s' → (block n k).map s' = vs → RowsHold s' (g n).rows)
    (hpost : ∀ s', Agree n s s' → (block n k).map s' = vs → Q (g n).val (n + k) s') :
    Runs (machine env) g n s Q := by
  have hrun : (machine env).run (g n).cmds s = writeAll (block n k) vs s := by
    simp only [hcmds, Machine.run_cons, Machine.run_nil, machine, htargets, hvals]
  have hagree : Agree n s (writeAll (block n k) vs s) := by
    intro w hw
    refine writeAll_of_notMem (fun hmem => ?_) _ _
    obtain ⟨i, rfl, hi, -⟩ := mem_block.1 hmem
    exact absurd (Generator.Wire.below_fresh.1 hw) (by omega)
  have hmap : (block n k).map (writeAll (block n k) vs s) = vs :=
    map_writeAll (nodup_block n k) (by rw [length_block, hlen]) s
  refine ⟨by omega, by rwa [hnext], hrun ▸ hagree, hrun ▸ hrows _ hagree hmap, ?_⟩
  rw [hrun, hnext]
  exact hpost _ hagree hmap

theorem below_of_mem_block {k : ℕ} {w : Var} (hw : w ∈ block n k) : w.Below (n + k) := by
  obtain ⟨i, rfl, -, hi⟩ := mem_block.1 hw
  exact hi

private theorem block_firstNumber (n k : ℕ) :
    (block (firstNumber (block n k)) k : List Var) = block n k := by
  cases k with
  | zero => rfl
  | succ k =>
    have hfirst : firstNumber (block n (k + 1)) = n := by
      rw [block_succ]
      rfl
    rw [hfirst]

private def splitRows (x : Var) (xi : List Var) : List (Row Ext) :=
  xi.map (fun v => ⟨matTerms [t v], matTerms [t v], matTerms [tn v]⟩) ++
    [⟨[], [], matTerms ((weights xi).map (fun v => (v.1, some v.2)) ++ [tn x])⟩]

private theorem split_apply (x : Var) (k n : ℕ) : split x k n =
    ⟨block n k, splitRows x (block n k), [.split x k (firstNumber (block n k))], n + k⟩ := by
  have hbits := Gen.each_fresh_row (γ := Cmd)
    (fun (_ : ℕ) (v : Var) => ⟨matTerms [t v], matTerms [t v], matTerms [tn v]⟩) (List.range k) n
  have hrows : ((List.range k).zip (block n k : List Var)).map
      (fun q => (⟨matTerms [t q.2], matTerms [t q.2], matTerms [tn q.2]⟩ : Row Ext)) =
      (block n k).map fun v => ⟨matTerms [t v], matTerms [t v], matTerms [tn v]⟩ := by
    have hsnd : ((List.range k).zip (block n k : List Var)).map Prod.snd = block n k :=
      List.map_snd_zip (by simp)
    conv_rhs => rw [← hsnd, List.map_map]
    rfl
  rw [List.length_range, hrows] at hbits
  have hloop : Gen.each (fun _ => newBit) (List.range k) n = _ := hbits
  simp only [split, Gen.bind_apply, hloop, Gen.cmd, sumOfPowers, addCons, Gen.row, Gen.pure_apply,
    splitRows]
  simp [matTerms]

theorem termsBelow_weights {xi : List Var} (h : ∀ x ∈ xi, x.Below n) :
    TermsBelow n ((weights xi).map fun v => (v.1, some v.2)) := by
  induction xi with
  | nil => simp [weights, TermsBelow]
  | cons x xi ih =>
    obtain ⟨hx, hxi⟩ := List.forall_mem_cons.1 h
    rw [weights_cons, List.map_cons]
    rintro a ha
    rcases List.mem_cons.1 ha with rfl | ha
    · simpa using hx
    · exact ih hxi a ha

private theorem eval_weights (s : Var → ℤ) (xi : List Var) :
    CmdPoly.eval s ((weights xi).map fun v => (v.1, [v.2])) =
      lin s ((weights xi).map fun v => (v.1, some v.2)) := by
  simp [CmdPoly.eval, lin, Function.comp_def]

/-- A loop over two lists. -/
theorem runs_zipWith {g : Var → Var → Gen Var} {f : ℤ → ℤ → ℤ} {xs ys : List Var}
    (hxs : ∀ x ∈ xs, x.Below n) (hys : ∀ y ∈ ys, y.Below n)
    (hg : ∀ x y m s', x.Below m → y.Below m → n ≤ m → Agree n s s' →
      Runs (machine env) (g x y) m s' fun r m' s'' => r.Below m' ∧ s'' r = f (s' x) (s' y)) :
    Runs (machine env) (Gen.each (fun c => g c.1 c.2) (xs.zip ys)) n s fun rs m s' =>
      (∀ w ∈ rs, w.Below m) ∧ rs.map s' = List.zipWith f (xs.map s) (ys.map s) := by
  refine (Runs.each_wire (φ := fun c => f (s c.1) (s c.2)) (xs.zip ys)
    fun c hc m s' hm hs' => ?_).mono fun rs m s' _ _ ⟨hbelow, hmap⟩ => ⟨hbelow, ?_⟩
  · have h1 := hxs _ (List.of_mem_zip hc).1
    have h2 := hys _ (List.of_mem_zip hc).2
    have hrun := hg c.1 c.2 m s' (h1.mono hm) (h2.mono hm) hm hs'
    rwa [hs' _ h1, hs' _ h2] at hrun
  · rw [hmap, List.zipWith_map, ← List.map_uncurry_zip_eq_zipWith]
    rfl

private theorem matrixVectorMul_apply (matrix : ℕ → ℕ → ℤ) (vector : List Var) (numRows n : ℕ) :
    matrixVectorMul matrix vector numRows n = ⟨block n numRows,
      ((List.range numRows).zip (block n numRows)).map fun r => ⟨matTerms [], matTerms [], matTerms
        (rowTerms (matrix r.1) vector ++ [(constPart (matrix r.1) vector, none), tn r.2])⟩,
      [.matrixVecMul numRows vector (block n numRows)], n + numRows⟩ := by
  have hrows := Gen.each_fresh_row (γ := Cmd) (fun (i : ℕ) (z : Var) => ⟨matTerms [], matTerms [],
    matTerms (rowTerms (matrix i) vector ++ [(constPart (matrix i) vector, none), tn z])⟩)
    (List.range numRows) n
  rw [List.length_range] at hrows
  have hloop : Gen.each (fun i => (do
    let z ← Gen.fresh
    addCons [] [] (rowTerms (matrix i) vector ++ [(constPart (matrix i) vector, none), tn z])
    pure z : Gen Var)) (List.range numRows) n = _ := hrows
  simp only [matrixVectorMul, Gen.bind_apply, hloop, Gen.cmd, Gen.pure_apply, List.append_nil,
    List.nil_append]

theorem termsBelow_rowTerms {row : ℕ → ℤ} {vector : List Var} (h : ∀ x ∈ vector, x.Below n) :
    TermsBelow n (rowTerms row vector) := by
  intro a ha
  obtain ⟨v, hv, rfl⟩ := List.mem_map.1 ha
  simpa using h v.1 (List.fst_mem_of_mem_zipIdx (List.mem_of_mem_filter hv))

private theorem eq_of_mem_zip {α β δ : Type} {f : β → δ} {φ : α → δ} {l : List α} {ws : List β}
    (h : ws.map f = l.map φ) {a : α} {b : β} (hp : (a, b) ∈ l.zip ws) : f b = φ a := by
  induction l generalizing ws with
  | nil => cases hp
  | cons a' l ih =>
    cases ws with
    | nil => cases hp
    | cons b' ws =>
      rw [List.map_cons, List.map_cons, List.cons.injEq] at h
      rcases List.mem_cons.1 hp with heq | hp
      · obtain ⟨rfl, rfl⟩ := Prod.mk.inj heq
        exact h.1
      · exact ih h.2 hp

section
variable (hs : Base s) (hn : 2 ≤ n)
include hs hn

/-- A new variable that a polynomial defines. -/
theorem runs_define {a b : Terms Ext} {c : Var → Terms Ext} {p : CmdPoly} {v : ℤ}
    (hval : p.eval s = v) (ha : TermsBelow n a) (hb : TermsBelow n b)
    (hc : TermsBelow (n + 1) (c (.fresh n)))
    (hrow : ∀ s' : Var → ℤ, Agree n s s' → s' (.fresh n) = v →
      lin s' a * lin s' b + lin s' (c (.fresh n)) = 0) :
    Runs (machine env) (do
      let x ← Gen.fresh
      addCons a b (c x)
      Gen.cmd (.poly x p)
      pure x : Gen Var) n s fun x m s' => x.Below m ∧ s' x = v := by
  subst hval
  have hagree : Agree n s (Function.update s (.fresh n) (p.eval s)) := by
    intro w hw
    refine Function.update_of_ne ?_ _ _
    rintro rfl
    exact absurd (Generator.Wire.below_fresh.1 hw) (lt_irrefl n)
  refine ⟨Nat.le_succ n, ?_, hagree, ?_, Nat.lt_succ_self n, Function.update_self _ _ _⟩
  · intro r hr
    obtain rfl : r = ⟨matTerms a, matTerms b, matTerms (c (.fresh n))⟩ := by
      simpa [Gen.bind_apply, Gen.fresh, addCons, Gen.row, Gen.cmd] using hr
    exact ⟨(termsBelow_matTerms ha).mono n.le_succ, (termsBelow_matTerms hb).mono n.le_succ,
      termsBelow_matTerms hc⟩
  · intro r hr
    obtain rfl : r = ⟨matTerms a, matTerms b, matTerms (c (.fresh n))⟩ := by
      simpa [Gen.bind_apply, Gen.fresh, addCons, Gen.row, Gen.cmd] using hr
    have hbase := hs.of_agree hn hagree
    show Row.eval (Function.update s (.fresh n) (p.eval s)) _ = 0
    rw [Row.eval, lin_matTerms hbase, lin_matTerms hbase, lin_matTerms hbase]
    exact hrow _ hagree (Function.update_self _ _ _)

theorem runs_split {x : Var} {k : ℕ} (hx : x.Below n) (h0 : 0 ≤ s x) (hk : s x < 2 ^ k) :
    Runs (machine env) (split x k) n s fun xi m s' =>
      (∀ w ∈ xi, w.Below m) ∧ xi.map s' = (bitsOf k (s x)).reverse := by
  refine runs_block env (c := .split x k (firstNumber (block n k))) (by rw [split_apply])
    (by rw [split_apply]) (block_firstNumber n k)
    (show _ = (bitsOf k (s x)).reverse from rfl) (by simp) ?_ (fun s' hagree hbits => ?_)
    fun s' hagree hbits => ?_
  · intro r hr
    rw [split_apply] at hr
    rcases List.mem_append.1 hr with hr | hr
    · obtain ⟨v, hv, rfl⟩ := List.mem_map.1 hr
      have hv' : TermsBelow (n + k) [t v] ∧ TermsBelow (n + k) [tn v] := by
        simpa [TermsBelow, t, tn] using below_of_mem_block hv
      exact ⟨termsBelow_matTerms hv'.1, termsBelow_matTerms hv'.1, termsBelow_matTerms hv'.2⟩
    · obtain rfl := List.mem_singleton.1 hr
      refine ⟨by simp [TermsBelow], by simp [TermsBelow], termsBelow_matTerms ?_⟩
      exact termsBelow_append_tn (termsBelow_weights fun _ => below_of_mem_block)
        (hx.mono (Nat.le_add_right n k))
  · have hbase := hs.of_agree hn hagree
    intro r hr
    rw [split_apply] at hr
    rcases List.mem_append.1 hr with hr | hr
    · obtain ⟨v, hv, rfl⟩ := List.mem_map.1 hr
      have hbit : IsBit (s' v) := (bits_bitsOf k (s x)).reverse _ (hbits ▸ List.mem_map_of_mem hv)
      simp only [Row.eval, lin_matTerms hbase, lin_t, lin_tn, lin_nil]
      rcases hbit with h | h <;> simp [h]
    · obtain rfl := List.mem_singleton.1 hr
      rw [Row.eval, lin_nil, zero_mul, zero_add, lin_matTerms hbase, lin_append,
        lin_weights (holds_int s' _), hbits, List.reverse_reverse, unsigned_bitsOf_of_lt h0 hk,
        lin_tn, lin_nil, hagree x hx]
      simp
  · rw [split_apply]
    exact ⟨fun _ => below_of_mem_block, hbits⟩

theorem runs_modBits {x : Var} {k l : ℕ} (hx : x.Below n) (h0 : 0 ≤ s x) (hk : s x < 2 ^ k)
    (hl : l ≤ k) :
    Runs (machine env) (modBits x k l) n s fun xi m s' =>
      (∀ w ∈ xi, w.Below m) ∧ xi.map s' = (bitsOf l (s x)).reverse := by
  refine .bind (runs_split env hs hn hx h0 hk) fun xi m s' _ _ ⟨hbelow, hbits⟩ => .pure ⟨?_, ?_⟩
  · exact fun w hw => hbelow w (List.mem_of_mem_drop hw)
  · rw [List.map_drop, hbits, List.drop_reverse, length_bitsOf, Nat.sub_sub_self hl, take_bitsOf hl]

theorem runs_combine {xi : List Var} (hxi : ∀ x ∈ xi, x.Below n) :
    Runs (machine env) (combine xi) n s fun x m s' =>
      x.Below m ∧ s' x = unsigned (xi.map s).reverse := by
  have hval : CmdPoly.eval s ((weights xi).map fun v => (v.1, [v.2])) =
      unsigned (xi.map s).reverse := by
    rw [eval_weights, lin_weights (holds_int s xi), Int.cast_id]
  have hterms := termsBelow_weights hxi
  exact runs_define env hs hn (a := []) (b := [])
    (c := fun x => (weights xi).map (fun v => (v.1, some v.2)) ++ [tn x])
    (p := (weights xi).map fun v => (v.1, [v.2])) hval (by simp [TermsBelow])
      (by simp [TermsBelow])
    (termsBelow_append_tn (hterms.mono n.le_succ) n.lt_succ_self)
    (by
      intro s' hagree hx
      rw [lin_nil, zero_mul, zero_add, lin_append, hagree.lin_eq hterms, lin_tn, lin_nil, hx,
        ← hval, eval_weights]
      ring)

theorem runs_ifThenElse {c x y : Var} (hc : c.Below n) (hx : x.Below n) (hy : y.Below n) :
    Runs (machine env) (ifThenElse c x y) n s fun r m s' =>
      r.Below m ∧ s' r = s c * (s x - s y) + s y := by
  have hval : CmdPoly.eval s [(1, [c, x]), (-1, [c, y]), (1, [y])] = s c * (s x - s y) + s y := by
    simp [CmdPoly.eval]
    ring
  exact runs_define env hs hn (a := [t c]) (b := [t x, tn y]) (c := fun r => [t y, tn r])
    (p := [(1, [c, x]), (-1, [c, y]), (1, [y])]) hval (by simpa [TermsBelow, t] using hc)
    (by simpa [TermsBelow, t, tn] using ⟨hx, hy⟩)
    (by simpa [TermsBelow, t, tn] using hy.mono n.le_succ)
    (by
      intro s' hagree hr
      simp only [lin_t, lin_tn, lin_nil, hr, hagree _ hc, hagree _ hx, hagree _ hy]
      ring)

theorem runs_xorBit {x y : Var} (hx : x.Below n) (hy : y.Below n) :
    Runs (machine env) (xorBit x y) n s fun r m s' =>
      r.Below m ∧ s' r = -2 * s x * s y + s x + s y := by
  have hval : CmdPoly.eval s [(-2, [x, y]), (1, [x]), (1, [y])] = -2 * s x * s y + s x + s y := by
    simp [CmdPoly.eval]
    ring
  exact runs_define env hs hn (a := [(-2, some x)]) (b := [t y]) (c := fun r => [t x, t y, tn r])
    (p := [(-2, [x, y]), (1, [x]), (1, [y])]) hval (by simpa [TermsBelow] using hx)
    (by simpa [TermsBelow, t] using hy)
    (by simpa [TermsBelow, t, tn] using ⟨hx.mono n.le_succ, hy.mono n.le_succ⟩)
    (by
      intro s' hagree hr
      simp only [lin_t, lin_tn, lin_nil, hr, hagree _ hx, hagree _ hy]
      rw [lin_cons, Option.elim_some, lin_nil, hagree _ hx]
      push_cast
      ring)

theorem runs_mult {x y : Var} (hx : x.Below n) (hy : y.Below n) :
    Runs (machine env) (mult x y) n s fun r m s' => r.Below m ∧ s' r = s x * s y := by
  have hval : CmdPoly.eval s [(1, [x, y])] = s x * s y := by simp [CmdPoly.eval]
  exact runs_define env hs hn (a := [t x]) (b := [t y]) (c := fun r => [tn r])
    (p := [(1, [x, y])]) hval (by simpa [TermsBelow, t] using hx)
    (by simpa [TermsBelow, t] using hy) (by simp [TermsBelow, tn])
    (by
      intro s' hagree hr
      simp only [lin_t, lin_tn, lin_nil, hr, hagree _ hx, hagree _ hy]
      ring)

theorem runs_sum {values : List Var} (hv : ∀ x ∈ values, x.Below n) :
    Runs (machine env) (sum values) n s fun r m s' => r.Below m ∧ s' r = (values.map s).sum := by
  have hval : CmdPoly.eval s (values.map fun v => (1, [v])) = (values.map s).sum := by
    simp [CmdPoly.eval, Function.comp_def]
  have hterms : TermsBelow n (values.map t) := by
    intro a ha
    obtain ⟨x, hx, rfl⟩ := List.mem_map.1 ha
    simpa [t] using hv x hx
  exact runs_define env hs hn (a := []) (b := []) (c := fun r => values.map t ++ [tn r])
    (p := values.map fun v => (1, [v])) hval (by simp [TermsBelow]) (by simp [TermsBelow])
    (termsBelow_append_tn (hterms.mono n.le_succ) n.lt_succ_self)
    (by
      intro s' hagree hr
      rw [lin_nil, zero_mul, zero_add, lin_append, hagree.lin_eq hterms, lin_map_t, lin_tn, lin_nil,
        hr]
      ring)

theorem runs_xor {xs ys : List Var} (hxs : ∀ x ∈ xs, x.Below n) (hys : ∀ y ∈ ys, y.Below n) :
    Runs (machine env) (xor xs ys) n s fun rs m s' =>
      (∀ w ∈ rs, w.Below m) ∧
        rs.map s' = List.zipWith (fun x y => -2 * x * y + x + y) (xs.map s) (ys.map s) :=
  runs_zipWith env hxs hys fun _ _ _ _ hx hy hm hs' =>
    runs_xorBit env (hs.of_agree hn hs') (hn.trans hm) hx hy

/-- The multiplexers of two lists, driven by a bit. -/
theorem runs_ifThenElseArray {c : Var} {b : ℤ} (hb : IsBit b) (hc : c.Below n) (hcb : s c = b)
    {xs ys : List Var} (hxs : ∀ x ∈ xs, x.Below n) (hys : ∀ y ∈ ys, y.Below n)
    (hlen : xs.length = ys.length) :
    Runs (machine env) (ifThenElseArray c xs ys) n s fun rs m s' =>
      (∀ w ∈ rs, w.Below m) ∧ rs.map s' = if b = 1 then xs.map s else ys.map s := by
  rw [← zipWith_select hb (by simpa using hlen)]
  refine runs_zipWith env hxs hys fun x y m s' hx hy hm hs' => ?_
  have hrun := runs_ifThenElse env (hs.of_agree hn hs') (hn.trans hm) (hc.mono hm) hx hy
  rwa [hs' _ hc, hcb] at hrun

theorem runs_matrixVectorMul {vector : List Var} {numRows : ℕ} (hvector : ∀ x ∈ vector, x.Below n) :
    Runs (machine env) (matrixVectorMul env.aMat vector numRows) n s fun xs m s' =>
      (∀ w ∈ xs, w.Below m) ∧
        xs.map s' = (List.range numRows).map fun i => dot (env.aMat i) (vector.map s) := by
  refine runs_block env (c := .matrixVecMul numRows vector (block n numRows))
    (by rw [matrixVectorMul_apply]) (by rw [matrixVectorMul_apply]) rfl
    (show _ = (List.range numRows).map fun i => dot (env.aMat i) (vector.map s) from rfl) (by simp)
      ?_
    (fun s' hagree hmap => ?_) fun s' hagree hmap => ?_
  · intro r hr
    rw [matrixVectorMul_apply] at hr
    obtain ⟨⟨i, z⟩, hz, rfl⟩ := List.mem_map.1 hr
    refine ⟨by simp [matTerms, TermsBelow], by simp [matTerms, TermsBelow], termsBelow_matTerms ?_⟩
    intro a ha
    rcases List.mem_append.1 ha with ha | ha
    · exact (termsBelow_rowTerms hvector).mono (Nat.le_add_right n numRows) a ha
    · have hz' := below_of_mem_block (List.of_mem_zip hz).2
      rcases List.mem_pair.1 ha with rfl | rfl
      · simp
      · simpa [tn] using hz'
  · have hbase := hs.of_agree hn hagree
    intro r hr
    rw [matrixVectorMul_apply] at hr
    obtain ⟨⟨i, z⟩, hz, rfl⟩ := List.mem_map.1 hr
    have hval : s' z = dot (env.aMat i) (vector.map s) := eq_of_mem_zip hmap hz
    have hrow := lin_rowTerms hbase (env.aMat i) (holds_int s' vector)
    rw [hagree.map_eq hvector, ← hval] at hrow
    simp only [Row.eval, lin_matTerms hbase, lin_nil, zero_mul, zero_add, lin_append, lin_cons,
      Option.elim_none, tn, Option.elim_some]
    linear_combination hrow
  · rw [matrixVectorMul_apply]
    exact ⟨fun _ => below_of_mem_block, hmap⟩

end

theorem runs_siblingHash {index : Var} {level : ℕ} {hash : List ℤ}
    (hash_eq : env.siblingHash (Env.address (s index)) level = hash)
    (hlen : hash.length = env.numHashBits) :
    Runs (machine env) (siblingHash index level env.numHashBits) n s fun xs m s' =>
      (∀ w ∈ xs, w.Below m) ∧ xs.map s' = hash.reverse := by
  have happly : siblingHash index level env.numHashBits n = ⟨block n env.numHashBits, [],
      [.dbGetSiblingHash index level (firstNumber (block n env.numHashBits))],
      n + env.numHashBits⟩ := by
    simp only [siblingHash, Gen.bind_apply, Gen.each_fresh, List.length_range, Gen.cmd,
      Gen.pure_apply, List.append_nil, List.nil_append]
  refine runs_block env (c := .dbGetSiblingHash index level (firstNumber (block n env.numHashBits)))
    (by rw [happly]) (by rw [happly]) (block_firstNumber n env.numHashBits)
    (show _ = hash.reverse by rw [← hash_eq]; rfl) (by rw [List.length_reverse, hlen])
    (by simp [happly]) (fun s' _ _ => by simp [happly]) fun s' _ hmap => ?_
  rw [happly]
  exact ⟨fun _ => below_of_mem_block, hmap⟩

end

end Pequin.Merkle
