import Mathlib.Data.List.GetD
import Mathlib.Data.List.ReduceOption
import Pequin.Frontend.Cast
import Pequin.Frontend.Expression

/-!
# Bitwise operators and constant shifts

`BitwiseOperator.inlineOp` converts its operands to bit strings of the encoding, makes an expression
for each output bit, and reads the output bits as a number of the encoding. An output bit that is
not known and not one of the bits at hand is assigned to a new variable.

In C the operands are words of the encoding. The bits of a constant are those of another number if
the encoding is signed and the sign of the constant is not its last bit.
-/

namespace Pequin

namespace Frontend

open TwosComplement CStyleCast

namespace BitwiseOperator

/-! ## Boolean expressions -/

def bitExpression : Bit → Expression
  | .const b => .const (if b then .ONE else .ZERO)
  | .lval x => .lval x

def booleanAnd (a b : Expression) : Expression := .times a b

/-- `BooleanExpressions.or`: `1 + (a - 1) * (1 - b)`. -/
def booleanOr (a b : Expression) : Expression :=
  .plus (.const .ONE) (.times (.plus a (.const .NEG_ONE)) (.minus (.const .ONE) b))

/-- `BooleanExpressions.xor`: `a + b - 2 * a * b`. -/
def booleanXor (a b : Expression) : Expression :=
  .plus a (.plus b (.times (.const ⟨-2, 1, FloatConstant.ONE.pot⟩) (.times a b)))

/-- `BooleanExpressions.not`, which makes the polynomial `1 - a`. -/
def booleanNot (a : Expression) : Expression := .minus (.const .ONE) a

inductive BitExpression where
  | bit (b : Bit)
  | and (left right : Bit)
  | or (left right : Bit)
  | xor (left right : Bit)
  | not (middle : Bit)

section
variable (L : Lookup ℤ)

def toBooleanConstant : Bit → Option Bool
  | .const b => some b
  | .lval x =>
    match L.const x with
    | some 1 => some true
    | some 0 => some false
    | _ => none

def BitExpression.resolve : BitExpression → Option Bit
  | .bit b =>
    match toBooleanConstant L b with
    | some c => some (.const c)
    | none => some b
  | .and a b =>
    match toBooleanConstant L a, toBooleanConstant L b with
    | some false, _ => some (.const false)
    | some true, some d => some (.const d)
    | some true, none => some b
    | none, some true => some a
    | none, some false => some (.const false)
    | none, none => none
  | .or a b =>
    match toBooleanConstant L a, toBooleanConstant L b with
    | some true, _ => some (.const true)
    | some false, some d => some (.const d)
    | some false, none => some b
    | none, some true => some (.const true)
    | none, some false => some a
    | none, none => none
  | .xor a b =>
    match toBooleanConstant L a, toBooleanConstant L b with
    | some c, some d => some (.const (c ^^ d))
    | some true, none => none
    | some false, none => some b
    | none, some true => none
    | none, some false => some a
    | none, none => none
  | .not a => (toBooleanConstant L a).map fun c => .const !c

def BitExpression.toExpression : BitExpression → Expression
  | .bit b => bitExpression b
  | .and a b => booleanAnd (bitExpression a) (bitExpression b)
  | .or a b => booleanOr (bitExpression a) (bitExpression b)
  | .xor a b =>
    match toBooleanConstant L a, toBooleanConstant L b with
    | some true, none => booleanNot (bitExpression b)
    | none, some true => booleanNot (bitExpression a)
    | _, _ => booleanXor (bitExpression a) (bitExpression b)
  | .not a => booleanNot (bitExpression a)

structure BitAssignment where
  target : ℕ
  rhs : Expression

/-- The variable of output bit `i` has the line `start + i`; the lines of bits that resolve stay
free. -/
def outputBits (start : ℕ) (es : List BitExpression) : List Bit :=
  es.mapIdx fun i e => (e.resolve L).getD (.lval (start + i))

def assignments (start : ℕ) (es : List BitExpression) : List BitAssignment :=
  (es.mapIdx fun i e => if (e.resolve L).isSome then none else
    some (BitAssignment.mk (start + i) (e.toExpression L))).reduceOption

/-! ## Operations -/

inductive Direction where
  | left
  | right

def Direction.value : Direction → ℤ
  | .left => 1
  | .right => -1

inductive Operation where
  | and (left right : Operand)
  | or (left right : Operand)
  | xor (left right : Operand)
  | not (middle : Operand)
  | shift (direction : Direction) (operand : Operand) (shiftVal : ℤ)

/-- `BitwiseShiftOperator.getOutputBit`, once the amount is known to be in range. -/
def getOutputBit (direction : Direction) (signed : Bool) (bits : List Bit) (shiftVal : ℤ) (i : ℕ) :
    Bit :=
  let target : ℤ := i - shiftVal * direction.value
  if target < 0 then .const false
  else if target ≥ bits.length then
    if signed then bits.getD (bits.length - 1) (.const false) else .const false
  else bits.getD target.toNat (.const false)

/-- What an operation produces: the string of the output bits and the statements it adds. -/
structure Result where
  bitString : BitString
  splits : List SplitStatement
  assigned : List BitAssignment

def lines (splits : List SplitStatement) : ℕ := (splits.map fun s => s.splitBits.length).sum

/-- After a variable was split, its bits are found again. -/
def remember (fresh : ℕ) : Operand → Operand → Operand
  | .lval x type none, .lval y type' none =>
    if x = y then .lval y type' (some (splitBitString type fresh)) else .lval y type' none
  | _, b => b

/-- The output bits, and the variables for those that do not resolve. -/
def output (encoding : RestrictedIntType) (splits : List SplitStatement) (start : ℕ)
    (bit : ℕ → BitExpression) : Result where
  bitString :=
    ⟨encoding, outputBits L start ((List.range encoding.getBits).map bit), by
      rw [outputBits, List.length_mapIdx, List.length_map, List.length_range]⟩
  splits := splits
  assigned := assignments L start ((List.range encoding.getBits).map bit)

def bitAt (bs : BitString) (i : ℕ) : Bit := bs.bits.getD i (.const false)

def unary (encoding : RestrictedIntType) (fresh : ℕ) (f : BitString → ℕ → BitExpression)
    (a : Operand) : Result :=
  let arg := toBitString encoding fresh a
  output L encoding arg.2 (fresh + lines arg.2) (f arg.1)

def binary (encoding : RestrictedIntType) (fresh : ℕ) (f : Bit → Bit → BitExpression)
    (a b : Operand) : Result :=
  let arg₀ := toBitString encoding fresh a
  let arg₁ := toBitString encoding (fresh + lines arg₀.2) (remember fresh a b)
  output L encoding (arg₀.2 ++ arg₁.2) (fresh + lines arg₀.2 + lines arg₁.2)
    fun i => f (bitAt arg₀.1 i) (bitAt arg₁.1 i)

def inlineOp (encoding : RestrictedIntType) (fresh : ℕ) : Operation → Option Result
  | .and a b => some (binary L encoding fresh .and a b)
  | .or a b => some (binary L encoding fresh .or a b)
  | .xor a b => some (binary L encoding fresh .xor a b)
  | .not a => some (unary L encoding fresh (fun bs i => .not (bitAt bs i)) a)
  | .shift direction a shiftVal =>
    if shiftVal < 0 then none
    else if shiftVal ≥ (toBitString encoding fresh a).1.bits.length then none
    else some (unary L encoding fresh
      (fun bs i => .bit (getOutputBit direction encoding.isSigned bs.bits shiftVal i)) a)

end

/-! ## Words -/

/-- The operation on words, where the right shift of a signed encoding copies the sign. -/
def Operation.apply {w : ℕ} (signed : Bool) (word : Operand → BitVec w) : Operation → BitVec w
  | .and a b => word a &&& word b
  | .or a b => word a ||| word b
  | .xor a b => word a ^^^ word b
  | .not a => ~~~ word a
  | .shift .left a shiftVal => word a <<< shiftVal.toNat
  | .shift .right a shiftVal =>
    if signed then (word a).sshiftRight shiftVal.toNat else word a >>> shiftVal.toNat

def Operation.operands : Operation → List Operand
  | .and a b | .or a b | .xor a b => [a, b]
  | .not a | .shift _ a _ => [a]

/-- The amount of a shift is less than the number of bits. -/
def Operation.InRange (bits : ℕ) : Operation → Prop
  | .shift _ _ shiftVal => 0 ≤ shiftVal ∧ shiftVal < bits
  | _ => True

def Operation.Holds (z : ℕ → ℤ) (op : Operation) : Prop := ∀ a ∈ op.operands, a.Holds z

/-- The number whose bits an operand becomes: the last bit of a constant is its sign if the encoding
is signed. -/
def encoded (encoding : RestrictedIntType) (z : ℕ → ℤ) : Operand → ℤ
  | .const c _ _ =>
    if encoding.isSigned then
      c % 2 ^ (encoding.getBits - 1) - if c < 0 then 2 ^ (encoding.getBits - 1) else 0
    else c
  | .lval x _ _ => z x

def BitAssignment.Holds (z : ℕ → ℤ) (s : BitAssignment) : Prop :=
  (z s.target : ℚ) = s.rhs.eval fun x => z x

structure Result.Holds (z : ℕ → ℤ) (r : Result) : Prop where
  splits : ∀ s ∈ r.splits, s.Holds z
  assigned : ∀ s ∈ r.assigned, s.Holds z

/-! ## Output bits -/

def isOne (z : ℕ → ℤ) (b : Bit) : Bool := b.eval z = 1

/-- What the operators are on Booleans. -/
def BitExpression.denote (z : ℕ → ℤ) : BitExpression → Bool
  | .bit b => isOne z b
  | .and a b => isOne z a && isOne z b
  | .or a b => isOne z a || isOne z b
  | .xor a b => isOne z a ^^ isOne z b
  | .not a => !isOne z a

def BitExpression.inputs : BitExpression → List Bit
  | .bit a | .not a => [a]
  | .and a b | .or a b | .xor a b => [a, b]

section
variable {L : Lookup ℤ} {z : ℕ → ℤ}

theorem eval_eq_toInt {b : Bit} (h : IsBit (b.eval z)) : b.eval z = (isOne z b).toInt := by
  rcases h with h | h <;> simp [isOne, h]

theorem isOne_of_eval {b : Bit} {v : Bool} (h : b.eval z = v.toInt) : isOne z b = v := by
  cases v <;> simp [isOne, h]

@[simp] theorem isOne_const (c : Bool) : isOne z (.const c) = c := by
  cases c <;> rfl

@[simp] theorem isBit_const (c : Bool) : IsBit ((Bit.const c).eval z) := by
  cases c with
  | false => exact .inl rfl
  | true => exact .inr rfl

theorem toBooleanConstant_eq (hL : L.Holds z) {b : Bit} {c : Bool}
    (h : toBooleanConstant L b = some c) : isOne z b = c := by
  cases b with
  | const b =>
    obtain rfl := Option.some.inj h
    cases b <;> rfl
  | lval x =>
    rw [toBooleanConstant] at h
    split at h
    · next hc =>
      obtain rfl := Option.some.inj h
      exact decide_eq_true (hL.const x 1 hc)
    · next hc =>
      obtain rfl := Option.some.inj h
      refine decide_eq_false ?_
      rw [Bit.eval, hL.const x 0 hc]
      exact zero_ne_one
    · cases h

/-- A bit that resolves has the value of its expression. -/
theorem isOne_resolve (hL : L.Holds z) {e : BitExpression} {b : Bit} (h : e.resolve L = some b) :
    isOne z b = e.denote z ∧ ((∀ a ∈ e.inputs, IsBit (a.eval z)) → IsBit (b.eval z)) := by
  cases e with
  | bit a =>
    rw [BitExpression.resolve] at h
    split at h
    · next c hc =>
      obtain rfl := Option.some.inj h
      exact ⟨(isOne_const c).trans (toBooleanConstant_eq hL hc).symm, fun _ => isBit_const c⟩
    · obtain rfl := Option.some.inj h
      exact ⟨rfl, fun hin => hin a List.mem_cons_self⟩
  | and a b | or a b | xor a b =>
    rw [BitExpression.resolve] at h
    simp only [BitExpression.denote, BitExpression.inputs, List.forall_mem_cons]
    split at h <;> first
      | cases h; done
      | (obtain rfl := Option.some.inj h
         simp_all [toBooleanConstant_eq hL])
  | not a =>
    rw [BitExpression.resolve, Option.map_eq_some_iff] at h
    obtain ⟨c, hc, rfl⟩ := h
    rw [BitExpression.denote, toBooleanConstant_eq hL hc]
    exact ⟨isOne_const _, fun _ => isBit_const _⟩

theorem eval_bitExpression (b : Bit) :
    (bitExpression b).eval (fun x => (z x : ℚ)) = (b.eval z : ℚ) := by
  cases b with
  | const b => cases b <;> simp [bitExpression, Expression.eval, Bit.eval]
  | lval x => rfl

/-- The polynomials of the Boolean operators. -/
theorem eval_toExpression (hL : L.Holds z) {e : BitExpression}
    (h : ∀ a ∈ e.inputs, IsBit (a.eval z)) :
    (e.toExpression L).eval (fun x => (z x : ℚ)) = ((e.denote z).toInt : ℚ) := by
  have hnot : ∀ {a : Bit}, IsBit (a.eval z) →
      (booleanNot (bitExpression a)).eval (fun x => (z x : ℚ)) =
      (((!isOne z a).toInt : ℤ) : ℚ) := by
    intro a ha
    rw [booleanNot, Expression.eval, eval_bitExpression, eval_eq_toInt ha]
    cases isOne z a <;> simp [Expression.eval]
  cases e with
  | bit a =>
    rw [BitExpression.toExpression, eval_bitExpression, eval_eq_toInt (h a List.mem_cons_self)]
    rfl
  | and a b =>
    obtain ⟨ha, hb⟩ : IsBit (a.eval z) ∧ IsBit (b.eval z) := by simpa [BitExpression.inputs] using h
    rw [BitExpression.toExpression, booleanAnd, Expression.eval, eval_bitExpression,
      eval_bitExpression, eval_eq_toInt ha, eval_eq_toInt hb, BitExpression.denote]
    cases isOne z a <;> cases isOne z b <;> simp
  | or a b =>
    obtain ⟨ha, hb⟩ : IsBit (a.eval z) ∧ IsBit (b.eval z) := by simpa [BitExpression.inputs] using h
    simp only [BitExpression.toExpression, booleanOr, Expression.eval, eval_bitExpression,
      eval_eq_toInt ha, eval_eq_toInt hb, BitExpression.denote]
    cases isOne z a <;> cases isOne z b <;> simp
  | xor a b =>
    obtain ⟨ha, hb⟩ : IsBit (a.eval z) ∧ IsBit (b.eval z) := by simpa [BitExpression.inputs] using h
    rw [BitExpression.toExpression]
    split
    · next hc _ => rw [hnot hb, BitExpression.denote, toBooleanConstant_eq hL hc, Bool.true_xor]
    · next _ hc => rw [hnot ha, BitExpression.denote, toBooleanConstant_eq hL hc, Bool.xor_true]
    · simp only [booleanXor, Expression.eval, eval_bitExpression, eval_eq_toInt ha, eval_eq_toInt
        hb, BitExpression.denote]
      cases isOne z a <;> cases isOne z b <;> norm_num [FloatConstant.value]
  | not a => exact hnot (h a List.mem_cons_self)

/-- Every output bit has the value of its expression. -/
theorem map_output (hL : L.Holds z) {encoding : RestrictedIntType} {splits : List SplitStatement}
    {start : ℕ} {bit : ℕ → BitExpression}
    (hin : ∀ i < encoding.getBits, ∀ a ∈ (bit i).inputs, IsBit (a.eval z))
    (hassigned : ∀ s ∈ (output L encoding splits start bit).assigned, s.Holds z) :
    (output L encoding splits start bit).bitString.bits.map (Bit.eval z) =
      (List.range encoding.getBits).map fun i => ((bit i).denote z).toInt := by
  refine List.ext_getElem (by simp [output, outputBits]) fun i hi hi' => ?_
  have hlt : i < encoding.getBits := by simpa using hi'
  simp only [output, outputBits, List.getElem_map, List.getElem_mapIdx, List.getElem_range]
  cases hres : (bit i).resolve L with
  | some b =>
    obtain ⟨hone, hbit⟩ := isOne_resolve hL hres
    rw [Option.getD_some, eval_eq_toInt (hbit (hin i hlt)), hone]
  | none =>
    have hmem : BitAssignment.mk (start + i) ((bit i).toExpression L) ∈
        (output L encoding splits start bit).assigned := by
      rw [output, assignments, List.reduceOption_mem_iff]
      refine List.mem_iff_getElem.2 ⟨i, by simpa using hlt, ?_⟩
      simp [hres]
    have heq := hassigned _ hmem
    rw [BitAssignment.Holds, eval_toExpression hL (hin i hlt)] at heq
    exact Int.cast_injective heq

/-! ## Operands -/

theorem unsigned_bitsOf_eq (n : ℕ) (c : ℤ) : unsigned (bitsOf n c) = c % 2 ^ n := by
  have h := unsigned_bitsOf n c
  have h' := Int.emod_add_mul_ediv c (2 ^ n)
  linarith

theorem map_constBitString (encoding : RestrictedIntType) (c : ℤ) :
    (constBitString encoding c).bits.map (Bit.eval z) = ofWord (BitVec.ofInt encoding.getBits
      (if encoding.isSigned then
        c % 2 ^ (encoding.getBits - 1) - if c < 0 then 2 ^ (encoding.getBits - 1)
          else 0 else c)) := by
  obtain ⟨n, hn⟩ := Nat.exists_eq_add_of_le' encoding.getBits_pos
  have hmap : (constBitString encoding c).bits.map (Bit.eval z) = bitsOf n c ++
      [if encoding.isSigned then (if c < 0 then 1 else 0) else c / 2 ^ n % 2] := by
    rw [constBitString]
    simp only [hn]
    exact map_constBits z encoding.isSigned c n c
  rw [hmap, hn, Nat.add_sub_cancel]
  have hlast : IsBit (if encoding.isSigned then (if c < 0 then 1 else 0) else c / 2 ^ n % 2) := by
    split
    · split
      · exact .inr rfl
      · exact .inl rfl
    · exact isBit_emod_two _
  refine eq_ofWord (Bits.append.2 ⟨bits_bitsOf n c, List.forall_mem_singleton.2 hlast⟩)
    (by simp) ?_
  cases encoding.isSigned with
  | false =>
    rw [if_neg Bool.false_ne_true, if_neg Bool.false_ne_true, ← bitsOf_concat]
    exact unsigned_bitsOf_modEq (n + 1) c
  | true =>
    rw [if_pos rfl, if_pos rfl, unsigned_concat, length_bitsOf, unsigned_bitsOf_eq]
    split
    · refine Int.modEq_iff_dvd.2 ⟨-1, ?_⟩
      rw [pow_succ]
      ring
    · rw [mul_zero, add_zero, sub_zero]

/-- The bits of an operand are those of a word. -/
theorem map_toBitString (encoding : RestrictedIntType) (fresh : ℕ) {a : Operand} (ha : a.Holds z)
    (hsplits : ∀ s ∈ (toBitString encoding fresh a).2, s.Holds z) :
    (toBitString encoding fresh a).1.bits.map (Bit.eval z) =
      ofWord (BitVec.ofInt encoding.getBits (encoded encoding z a)) := by
  cases a with
  | const c type mem => exact map_constBitString encoding c
  | lval x type bitString =>
    cases bitString with
    | some bs => exact BitString.Encodes.map_translate (ha.2 bs rfl) encoding
    | none =>
      exact BitString.Encodes.map_translate
        (splitBitString_encodes (hsplits _ (List.mem_singleton.2 rfl))) encoding

theorem encoding_toBitString (encoding : RestrictedIntType) (fresh : ℕ) (a : Operand) :
    (toBitString encoding fresh a).1.encoding = encoding := by
  cases a with
  | const c type mem => rfl
  | lval x type bitString => cases bitString <;> rfl

section
variable {bs : BitString} {w : ℕ} {x : BitVec w} (h : bs.bits.map (Bit.eval z) = ofWord x) {i : ℕ}
  (hi : i < w)
include h hi

theorem eval_bitAt : (bitAt bs i).eval z = (x.getLsbD i).toInt := by
  have hlen : bs.bits.length = w := by simpa using congrArg List.length h
  have hget : (bs.bits.map (Bit.eval z)).getD i 0 = (ofWord x).getD i 0 := by rw [h]
  rw [bitAt, List.getD_eq_getElem _ _ (by omega)]
  rw [List.getD_eq_getElem _ _ (by simpa [hlen] using hi), List.getD_eq_getElem _ _
    (by simpa using hi)]
    at hget
  simpa [ofWord] using hget

theorem isBit_bitAt : IsBit ((bitAt bs i).eval z) := by
  rw [eval_bitAt h hi]
  exact isBit_toInt _

theorem isOne_bitAt : isOne z (bitAt bs i) = x.getLsbD i := isOne_of_eval (eval_bitAt h hi)

end

/-! ## The result of an operation -/

theorem encoded_remember (encoding : RestrictedIntType) (fresh : ℕ) (a b : Operand) :
    encoded encoding z (remember fresh a b) = encoded encoding z b := by
  rw [remember.eq_def]
  split
  · split <;> rfl
  · rfl

/-- The bits that are found again are those of the variable. -/
theorem holds_remember {encoding : RestrictedIntType} {fresh : ℕ} {a b : Operand}
    (hsplits : ∀ s ∈ (toBitString encoding fresh a).2, s.Holds z) (hb : b.Holds z) :
    (remember fresh a b).Holds z := by
  rw [remember.eq_def]
  split
  · split
    · next hxy =>
      subst hxy
      refine ⟨hb.1, fun bs hbs => ?_⟩
      obtain rfl := Option.some.inj hbs
      exact splitBitString_encodes (hsplits _ (List.mem_singleton.2 rfl))
    · exact hb
  · exact hb

theorem range_map_eq_ofWord {w : ℕ} {x : BitVec w} {f : ℕ → Bool}
    (h : ∀ i < w, f i = x.getLsbD i) : ((List.range w).map fun i => (f i).toInt) = ofWord x :=
  List.map_congr_left fun i hi => by rw [h i (List.mem_range.1 hi)]

section
variable {encoding : RestrictedIntType} {fresh : ℕ}

variable {x : BitVec encoding.getBits}

/-- The output bits of an operation on one operand are those of a word, if each is the bit of the
word. -/
theorem map_unary (hL : L.Holds z) {f : BitString → ℕ → BitExpression} {a : Operand}
    (ha : a.Holds z) (hr : (unary L encoding fresh f a).Holds z)
    (hin : ∀ bs : BitString, bs.bits.map (Bit.eval z) =
      ofWord (BitVec.ofInt encoding.getBits (encoded encoding z a)) →
      ∀ i < encoding.getBits, (∀ b ∈ (f bs i).inputs, IsBit (b.eval z)) ∧
        (f bs i).denote z = x.getLsbD i) :
    (unary L encoding fresh f a).bitString.bits.map (Bit.eval z) = ofWord x := by
  have hword := map_toBitString encoding fresh ha hr.splits
  rw [unary, map_output hL (fun i hi => (hin _ hword i hi).1) hr.assigned]
  exact range_map_eq_ofWord fun i hi => (hin _ hword i hi).2

theorem map_binary (hL : L.Holds z) {f : Bit → Bit → BitExpression} {a b : Operand}
    (ha : a.Holds z) (hb : b.Holds z) (hr : (binary L encoding fresh f a b).Holds z)
    {g : Bool → Bool → Bool}
    (hf : ∀ c d, (f c d).inputs = [c, d] ∧ (f c d).denote z = g (isOne z c) (isOne z d))
    (hx : ∀ i < encoding.getBits, x.getLsbD i =
      g ((BitVec.ofInt encoding.getBits (encoded encoding z a)).getLsbD i)
        ((BitVec.ofInt encoding.getBits (encoded encoding z b)).getLsbD i)) :
    (binary L encoding fresh f a b).bitString.bits.map (Bit.eval z) = ofWord x := by
  have hsplits := List.forall_mem_append.1 hr.splits
  have hword := map_toBitString encoding fresh ha hsplits.1
  have hword' := map_toBitString encoding (fresh + lines (toBitString encoding fresh a).2)
    (holds_remember hsplits.1 hb) hsplits.2
  rw [encoded_remember] at hword'
  rw [binary, map_output hL (fun i hi => ?_) hr.assigned]
  · refine range_map_eq_ofWord fun i hi => ?_
    rw [(hf _ _).2, isOne_bitAt hword hi, isOne_bitAt hword' hi, hx i hi]
  · rw [(hf _ _).1]
    exact List.forall_mem_cons.2 ⟨isBit_bitAt hword hi,
      List.forall_mem_singleton.2 (isBit_bitAt hword' hi)⟩

/-- A shift takes each bit from another place, or from the sign. -/
theorem getOutputBit_spec {bs : BitString} (h : bs.bits.map (Bit.eval z) = ofWord x)
    (direction : Direction) {shiftVal : ℤ} (h0 : 0 ≤ shiftVal) {i : ℕ} (hi : i < encoding.getBits) :
    (getOutputBit direction encoding.isSigned bs.bits shiftVal i).eval z =
      (((match direction with
        | .left => x <<< shiftVal.toNat
        | .right => if encoding.isSigned then x.sshiftRight shiftVal.toNat
            else x >>> shiftVal.toNat) : BitVec encoding.getBits).getLsbD i).toInt := by
  have hlen : bs.bits.length = encoding.getBits := by simpa using congrArg List.length h
  have hpos := encoding.getBits_pos
  obtain ⟨s, rfl⟩ := Int.eq_ofNat_of_zero_le h0
  rw [getOutputBit]
  cases direction with
  | left =>
    simp only [Direction.value, mul_one, hlen, Int.toNat_natCast, BitVec.getLsbD_shiftLeft]
    split
    · next hlt => simp [Bit.eval, show i < s by omega]
    · next hge =>
      rw [if_neg (by omega), show ((i : ℤ) - s).toNat = i - s by omega]
      rw [show bs.bits.getD (i - s) (.const false) = bitAt bs (i - s) from rfl,
        eval_bitAt h (by omega)]
      simp [hi, show ¬ i < s by omega]
  | right =>
    simp only [Direction.value, hlen, Int.toNat_natCast]
    rw [if_neg (by omega)]
    split
    · next hge =>
      split
      · next hs =>
        rw [show bs.bits.getD (encoding.getBits - 1) (.const false) = bitAt bs
          (encoding.getBits - 1)
          from rfl, eval_bitAt h (by omega), BitVec.getLsbD_sshiftRight, BitVec.msb_eq_getLsbD_last]
        simp [show ¬ encoding.getBits ≤ i by omega, show ¬ s + i < encoding.getBits by omega]
      · next hs =>
        rw [BitVec.getLsbD_ushiftRight, BitVec.getLsbD_of_ge _ _ (by omega)]
        rfl
    · next hlt =>
      rw [show ((i : ℤ) - s * -1).toNat = s + i by omega,
        show bs.bits.getD (s + i) (.const false) = bitAt bs (s + i) from rfl,
          eval_bitAt h (by omega)]
      split
      · rw [BitVec.getLsbD_sshiftRight]
        simp [show ¬ encoding.getBits ≤ i by omega, show s + i < encoding.getBits by omega]
      · rw [BitVec.getLsbD_ushiftRight]

/-- The word that the code computes: an operand is read as the number whose bits it becomes. -/
def Operation.word (encoding : RestrictedIntType) (z : ℕ → ℤ) (op : Operation) :
    BitVec encoding.getBits :=
  op.apply encoding.isSigned fun a => BitVec.ofInt encoding.getBits (encoded encoding z a)

variable {op : Operation}

theorem map_inlineOp (hL : L.Holds z) (hop : op.Holds z) {r : Result}
    (h : inlineOp L encoding fresh op = some r) (hr : r.Holds z) :
    r.bitString.bits.map (Bit.eval z) = ofWord (op.word encoding z) := by
  have hunary : ∀ {bs : BitString} {x : BitVec encoding.getBits},
      bs.bits.map (Bit.eval z) = ofWord x → ∀ i < encoding.getBits,
      (∀ b ∈ (BitExpression.not (bitAt bs i)).inputs, IsBit (b.eval z)) ∧
        (BitExpression.not (bitAt bs i)).denote z = (~~~ x).getLsbD i := by
    intro bs x hword i hi
    refine ⟨List.forall_mem_singleton.2 (isBit_bitAt hword hi), ?_⟩
    rw [BitExpression.denote, isOne_bitAt hword hi, BitVec.getLsbD_not, decide_eq_true hi,
      Bool.true_and]
  cases op with
  | and a b =>
    obtain rfl := Option.some.inj h
    exact map_binary (g := and) hL (hop a (by simp [Operation.operands]))
      (hop b (by simp [Operation.operands])) hr (fun _ _ => ⟨rfl, rfl⟩) fun i _ =>
        BitVec.getLsbD_and
  | or a b =>
    obtain rfl := Option.some.inj h
    exact map_binary (g := or) hL (hop a (by simp [Operation.operands]))
      (hop b (by simp [Operation.operands])) hr (fun _ _ => ⟨rfl, rfl⟩) fun i _ => BitVec.getLsbD_or
  | xor a b =>
    obtain rfl := Option.some.inj h
    exact map_binary (g := xor) hL (hop a (by simp [Operation.operands]))
      (hop b (by simp [Operation.operands])) hr (fun _ _ => ⟨rfl, rfl⟩) fun i _ =>
        BitVec.getLsbD_xor
  | not a =>
    obtain rfl := Option.some.inj h
    exact map_unary hL (hop a List.mem_cons_self) hr fun bs hword => hunary hword
  | shift direction a shiftVal =>
    rw [inlineOp] at h
    split at h
    · cases h
    · next h0 =>
      split at h
      · cases h
      · obtain rfl := Option.some.inj h
        refine map_unary hL (hop a List.mem_cons_self) hr fun bs hword i hi => ?_
        have hout := getOutputBit_spec hword direction (not_lt.1 h0) hi
        refine ⟨List.forall_mem_singleton.2 (hout ▸ isBit_toInt _), ?_⟩
        rw [BitExpression.denote, isOne_of_eval hout]
        cases direction <;> rfl

theorem encoding_inlineOp {r : Result} (h : inlineOp L encoding fresh op = some r) :
    r.bitString.encoding = encoding := by
  cases op with
  | and a b | or a b | xor a b | not a =>
    obtain rfl := Option.some.inj h
    rfl
  | shift direction a shiftVal =>
    rw [inlineOp] at h
    split at h
    · cases h
    · split at h
      · cases h
      · obtain rfl := Option.some.inj h
        rfl

/-- The result is read as the number of the word. -/
theorem eval_inlineOp (hL : L.Holds z) (hop : op.Holds z) {r : Result}
    (h : inlineOp L encoding fresh op = some r) (hr : r.Holds z) :
    (r.bitString.toPolynomial L).eval z = read encoding.isSigned (op.word encoding z) := by
  rw [BitString.eval_toPolynomial hL, map_inlineOp hL hop h hr, encoding_inlineOp h,
    value_ofWord _ encoding.getBits_pos]

theorem exists_inlineOp (L : Lookup ℤ) (encoding : RestrictedIntType) (fresh : ℕ)
    (h : op.InRange encoding.getBits) : ∃ r, inlineOp L encoding fresh op = some r := by
  cases op with
  | and a b | or a b | xor a b | not a => exact ⟨_, rfl⟩
  | shift direction a shiftVal =>
    have hlen : (toBitString encoding fresh a).1.bits.length = encoding.getBits := by
      rw [BitString.length_bits, encoding_toBitString]
    rw [inlineOp, if_neg (not_lt.2 h.1), if_neg (by rw [hlen]; exact not_le.2 h.2)]
    exact ⟨_, rfl⟩

end

end

/-- The word that C computes from the values of the operands. -/
def Operation.cWord (encoding : RestrictedIntType) (z : ℕ → ℤ) (op : Operation) :
    BitVec encoding.getBits :=
  op.apply encoding.isSigned fun a => BitVec.ofInt encoding.getBits (a.eval z)

/-- The last bit of the word of an operand's value. -/
def lastBit (encoding : RestrictedIntType) (z : ℕ → ℤ) (a : Operand) : Bool :=
  (BitVec.ofInt encoding.getBits (a.eval z)).msb

/-- The last bit that the code takes: of a constant in a signed encoding, the sign. -/
def signBit (encoding : RestrictedIntType) (z : ℕ → ℤ) : Operand → Bool
  | .const c type mem => if encoding.isSigned then c < 0 else lastBit encoding z (.const c type mem)
  | .lval x type bitString => lastBit encoding z (.lval x type bitString)

/-- The bits that the code takes in place of the last bits make no difference to the operation. -/
def Operation.SignHarmless (encoding : RestrictedIntType) (z : ℕ → ℤ) : Operation → Prop
  | .and a b =>
    (signBit encoding z a && signBit encoding z b) = (lastBit encoding z a && lastBit encoding z b)
  | .or a b =>
    (signBit encoding z a || signBit encoding z b) = (lastBit encoding z a || lastBit encoding z b)
  | .xor a b =>
    (signBit encoding z a ^^ signBit encoding z b) = (lastBit encoding z a ^^ lastBit encoding z b)
  | .not a => signBit encoding z a = lastBit encoding z a
  | .shift .left a shiftVal => 0 < shiftVal ∨ signBit encoding z a = lastBit encoding z a
  | .shift .right a _ => signBit encoding z a = lastBit encoding z a

section
variable {encoding : RestrictedIntType} {z : ℕ → ℤ}

theorem encoded_modEq (a : Operand) :
    encoded encoding z a ≡ a.eval z [ZMOD 2 ^ (encoding.getBits - 1)] := by
  cases a with
  | const c type mem =>
    rw [encoded, Operand.eval]
    split
    · refine (Int.modEq_iff_dvd.2 ⟨c / 2 ^ (encoding.getBits - 1) + if c < 0 then 1 else 0, ?_⟩)
      have hdiv := Int.emod_add_mul_ediv c (2 ^ (encoding.getBits - 1))
      split <;> linarith
    · rfl
  | lval x type bitString => rfl

/-- A constant that the encoding has room for keeps its value. -/
theorem encoded_of_fits {a : Operand} (h : Fits encoding.isSigned encoding.getBits (a.eval z)) :
    encoded encoding z a = a.eval z := by
  cases a with
  | const c type mem =>
    rw [encoded]
    split
    · next hs =>
      rw [hs, Operand.eval] at h
      obtain ⟨hl, hu⟩ : -2 ^ (encoding.getBits - 1) ≤ c ∧ c ≤ 2 ^ (encoding.getBits - 1) - 1 := h
      split
      · rw [← Int.add_emod_right, Int.emod_eq_of_lt (by omega) (by omega)]
        exact add_sub_cancel_right _ _
      · exact (sub_zero _).trans (Int.emod_eq_of_lt (by omega) (by omega))
    · rfl
  | lval x type bitString => rfl

theorem msb_encoded (a : Operand) :
    (BitVec.ofInt encoding.getBits (encoded encoding z a)).msb = signBit encoding z a := by
  cases a with
  | const c type mem =>
    rw [encoded, signBit]
    split
    · have hpow : (0 : ℤ) < 2 ^ (encoding.getBits - 1) := by positivity
      have hnonneg := Int.emod_nonneg c hpow.ne'
      have hlt := Int.emod_lt_of_pos c hpow
      rw [msb_ofInt encoding.getBits_pos ⟨by split <;> omega, by split <;> omega⟩]
      congr 1
      split <;> simp <;> omega
    · rfl
  | lval x type bitString => rfl

theorem getLsbD_encoded (a : Operand) {i : ℕ} (hi : i < encoding.getBits - 1) :
    (BitVec.ofInt encoding.getBits (encoded encoding z a)).getLsbD i =
      (BitVec.ofInt encoding.getBits (a.eval z)).getLsbD i :=
  getLsbD_ofInt_congr (Nat.sub_le _ _) (encoded_modEq a) hi

theorem ofInt_encoded_iff (a : Operand) :
    BitVec.ofInt encoding.getBits (encoded encoding z a) = BitVec.ofInt encoding.getBits
      (a.eval z) ↔ signBit encoding z a = lastBit encoding z a := by
  rw [eq_iff_msb fun i hi => getLsbD_encoded a hi, msb_encoded]
  rfl

theorem shiftLeft_encoded_iff (a : Operand) (s : ℕ) :
    BitVec.ofInt encoding.getBits (encoded encoding z a) <<< s =
        BitVec.ofInt encoding.getBits (a.eval z) <<< s ↔
      0 < (s : ℤ) ∨ signBit encoding z a = lastBit encoding z a := by
  rcases Nat.eq_zero_or_pos s with rfl | hs
  · simp [ofInt_encoded_iff]
  · refine iff_of_true (BitVec.eq_of_getLsbD_eq fun i hi => ?_) (.inl (by omega))
    rw [BitVec.getLsbD_shiftLeft, BitVec.getLsbD_shiftLeft]
    rcases Nat.lt_or_ge i s with hlt | hge
    · simp [hlt]
    -- the last bit is shifted out
    · rw [getLsbD_encoded a (by omega)]

theorem shiftRight_encoded_iff (a : Operand) (s : ℕ) :
    (if encoding.isSigned then (BitVec.ofInt encoding.getBits (encoded encoding z a)).sshiftRight s
        else BitVec.ofInt encoding.getBits (encoded encoding z a) >>> s) =
        (if encoding.isSigned then (BitVec.ofInt encoding.getBits (a.eval z)).sshiftRight s
          else BitVec.ofInt encoding.getBits (a.eval z) >>> s) ↔
      signBit encoding z a = lastBit encoding z a := by
  refine ⟨fun h => ?_, fun h => by rw [(ofInt_encoded_iff a).2 h]⟩
  split at h
  · have hmsb := congrArg BitVec.msb h
    rwa [BitVec.msb_sshiftRight, BitVec.msb_sshiftRight, msb_encoded] at hmsb
  · next hs =>
    cases a with
    | const c type mem => rw [signBit, if_neg hs]
    | lval x type bitString => rfl

/-- The words agree just if the last bits do. -/
theorem word_eq_cWord_iff {op : Operation} (hrange : op.InRange encoding.getBits) :
    op.word encoding z = op.cWord encoding z ↔ op.SignHarmless encoding z := by
  cases op with
  | and a b =>
    rw [Operation.word, Operation.cWord, Operation.apply, Operation.apply, eq_iff_msb,
      BitVec.msb_and, BitVec.msb_and, msb_encoded, msb_encoded]
    · rfl
    · intro i hi
      rw [BitVec.getLsbD_and, BitVec.getLsbD_and, getLsbD_encoded a hi, getLsbD_encoded b hi]
  | or a b =>
    rw [Operation.word, Operation.cWord, Operation.apply, Operation.apply, eq_iff_msb,
      BitVec.msb_or, BitVec.msb_or, msb_encoded, msb_encoded]
    · rfl
    · intro i hi
      rw [BitVec.getLsbD_or, BitVec.getLsbD_or, getLsbD_encoded a hi, getLsbD_encoded b hi]
  | xor a b =>
    rw [Operation.word, Operation.cWord, Operation.apply, Operation.apply, eq_iff_msb,
      BitVec.msb_xor, BitVec.msb_xor, msb_encoded, msb_encoded]
    · rfl
    · intro i hi
      rw [BitVec.getLsbD_xor, BitVec.getLsbD_xor, getLsbD_encoded a hi, getLsbD_encoded b hi]
  | not a =>
    rw [Operation.word, Operation.cWord, Operation.apply, Operation.apply, BitVec.not_inj,
      ofInt_encoded_iff]
    rfl
  | shift direction a shiftVal =>
    obtain ⟨s, rfl⟩ := Int.eq_ofNat_of_zero_le hrange.1
    cases direction with
    | left => exact shiftLeft_encoded_iff a s
    | right => exact shiftRight_encoded_iff a s

end

/-- An operation in range does not fail. Its result is that of C just if the sign of each constant
operand of a signed encoding may stand for its last bit. -/
theorem inlineOp_eq_cWord_iff (target : Target) {op : Operation} (hrange : op.InRange target.bits)
    (L : Lookup ℤ) (fresh : ℕ) :
    ∃ r, inlineOp L target.type fresh op = some r ∧
      ∀ z, L.Holds z → op.Holds z → r.Holds z →
        ((r.bitString.toPolynomial L).eval z = read target.signed (op.cWord target.type z) ↔
          op.SignHarmless target.type z) := by
  have hrange' : op.InRange target.type.getBits := @Target.getBits_type target ▸ hrange
  obtain ⟨r, hr⟩ := exists_inlineOp L target.type fresh hrange'
  refine ⟨r, hr, fun z hL hop hholds => ?_⟩
  rw [eval_inlineOp hL hop hr hholds, Target.isSigned_type, ← word_eq_cWord_iff hrange']
  exact ⟨read_injective, fun h => by rw [h]⟩

/-- `x & 12`, where the variable `x` has line `0`. -/
def andTwelve : Operation :=
  .and (.lval 0 (.uint 4) none) (.const 12 (constType 12) (mem_constType 12))

/-- `x` and the four bits it is split to. -/
def tenAndBits (x : ℕ) : ℤ := [10, 0, 1, 0, 1].getD x 0

theorem inlineOp_ten_and_twelve :
    ∃ r, inlineOp intLookup (Target.type ⟨false, 4, by decide⟩) 1 andTwelve = some r ∧
      r.Holds tenAndBits ∧ (r.bitString.toPolynomial intLookup).eval tenAndBits = 8 := by
  obtain ⟨r, hr, h⟩ := @inlineOp_eq_cWord_iff ⟨false, 4, by decide⟩ andTwelve trivial intLookup 1
  have hop : andTwelve.Holds tenAndBits := by
    exact List.forall_mem_cons.2 ⟨⟨by decide, nofun⟩, List.forall_mem_singleton.2 trivial⟩
  have hholds : r.Holds tenAndBits := by
    obtain rfl := Option.some.inj hr
    refine ⟨List.forall_mem_singleton.2 ⟨?_, by decide⟩, List.forall_mem_nil _⟩
    exact (by decide : ∀ b ∈ ([0, 1, 0, 1] : List ℤ), b = 0 ∨ b = 1)
  have heval := (h tenAndBits (intLookup_holds _) hop hholds).2 rfl
  exact ⟨r, hr, hholds, heval.trans (by decide)⟩

/-- `~200` of eight signed bits becomes `-73` in place of `55`. -/
theorem inlineOp_not_two_hundred :
    ∃ r, inlineOp intLookup (Target.type ⟨true, 8, by decide⟩) 0
        (.not (.const 200 (constType 200) (mem_constType 200))) = some r ∧
      r.Holds (fun _ => 0) ∧
      (r.bitString.toPolynomial intLookup).eval (fun _ => 0) = -73 ∧
      read true (~~~ BitVec.ofInt 8 200) = 55 :=
  ⟨_, rfl, ⟨List.forall_mem_nil _, List.forall_mem_nil _⟩, by decide, by decide⟩

end BitwiseOperator

end Frontend

end Pequin
