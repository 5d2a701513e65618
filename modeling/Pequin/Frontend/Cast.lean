import Pequin.Frontend.BitString

/-!
# C casts to integer types

`CStyleCast.inlineOp` returns an operand whose type is a part of the target as it is, and converts
the others to a bit string of the target. What C asks for is the number of the target that is
congruent to the operand modulo the power of two.
-/

namespace Pequin

namespace Frontend

open TwosComplement

namespace CStyleCast

/-- The target `int` or `uint` of some number of bits. -/
structure Target where
  signed : Bool
  bits : ℕ
  pos : 1 ≤ bits

def Target.type (target : Target) : RestrictedIntType :=
  if target.signed then .int target.bits else .uint target.bits

/-- An operand: a constant or a variable that is known to be constant, with its type, or a variable
with its type and, if it was split before, its bits. -/
inductive Operand where
  | const (c : ℤ) (type : RestrictedIntType) (mem : c ∈ type)
  | lval (x : ℕ) (type : RestrictedIntType) (bitString : Option BitString)

def Operand.type : Operand → RestrictedIntType
  | .const _ type _ => type
  | .lval _ type _ => type

def Operand.eval (z : ℕ → ℤ) : Operand → ℤ
  | .const c _ _ => c
  | .lval x _ _ => z x

/-- `BitString.toBitString`, with the statements that it emits. -/
def toBitString (encoding : RestrictedIntType) (fresh : ℕ) :
    Operand → BitString × List SplitStatement
  | .const c _ _ => (constBitString encoding c, [])
  | .lval _ _ (some oldString) => (oldString.translate encoding, [])
  | .lval x type none =>
    ((splitBitString type fresh).translate encoding, [⟨type, x, freshBits type fresh⟩])

inductive Result where
  | operand (op : Operand)
  | bitString (bs : BitString)

/-- The value of the expression, where a bit string is read as a polynomial. -/
def Result.eval (L : Lookup ℤ) (z : ℕ → ℤ) : Result → ℤ
  | .operand op => op.eval z
  | .bitString bs => (bs.toPolynomial L).eval z

def inlineOp (target : Target) (fresh : ℕ) (op : Operand) : Result × List SplitStatement :=
  if op.type.isSubType target.type then (.operand op, [])
  else ((toBitString target.type fresh op).map .bitString id)

/-! ## Conversion -/

/-- The conversion of `v` to the target is `w`. -/
structure Converts (target : Target) (v w : ℤ) : Prop where
  mem : w ∈ target.type
  modEq : w ≡ v [ZMOD 2 ^ target.bits]

def Operand.Holds (z : ℕ → ℤ) : Operand → Prop
  | .const _ _ _ => True
  | .lval x type bitString => z x ∈ type ∧ ∀ bs ∈ bitString, bs.Encodes z (z x)

/-- The cast is right: in every assignment that satisfies the emitted statements, the expression is
the conversion of the operand. -/
def Correct (target : Target) (op : Operand) : Prop :=
  ∀ (L : Lookup ℤ) (fresh : ℕ) (z : ℕ → ℤ), L.Holds z → op.Holds z →
    (∀ s ∈ (inlineOp target fresh op).2, s.Holds z) →
    Converts target (op.eval z) ((inlineOp target fresh op).1.eval L z)

/-- The last bit of a constant that does not fit a signed target is its sign. -/
def SignIsLastBit (target : Target) : Operand → Prop
  | .const c type _ => target.signed = true → type.isSubType target.type = false →
      (c / 2 ^ (target.bits - 1) % 2 = 1 ↔ c < 0)
  | .lval _ _ _ => True

section
variable {target : Target}

@[simp] theorem Target.isSigned_type : target.type.isSigned = target.signed := by
  rw [type]
  cases target.signed <;> rfl

@[simp] theorem Target.getBits_type : target.type.getBits = target.bits := by
  rw [type]
  split
  · exact RestrictedIntType.getBits_int target.pos
  · exact RestrictedIntType.getBits_uint target.pos

/-- The number that as many bits encode as the target has is in the target. -/
theorem Target.value_mem {bs : List ℤ} (h : Bits bs) (hlen : bs.length = target.bits) :
    value target.signed bs ∈ target.type := by
  have hpos := target.pos
  have hne : bs ≠ [] := List.ne_nil_of_length_pos (by omega)
  rw [type]
  cases target.signed with
  | true =>
    rw [if_pos rfl, RestrictedIntType.mem_int, ← hlen]
    exact signed_bounds h hne
  | false =>
    rw [if_neg Bool.false_ne_true, RestrictedIntType.mem_uint hpos, ← hlen]
    exact unsigned_bounds h

end

/-! ## Constants -/

theorem eval_const_odd (z : ℕ → ℤ) (val : ℤ) : (Bit.const (val % 2 = 1)).eval z = val % 2 := by
  rcases Int.emod_two_eq_zero_or_one val with h | h <;> simp [Bit.eval, h]

/-- The bits of a constant are those of its two's complement up to the last one. -/
theorem map_constBits (z : ℕ → ℤ) (signed : Bool) (cv : ℤ) (n : ℕ) (val : ℤ) :
    (constBits signed cv (n + 1) val).map (Bit.eval z) =
      bitsOf n val ++ [if signed then (if cv < 0 then 1 else 0) else val / 2 ^ n % 2] := by
  induction n generalizing val with
  | zero =>
    cases signed with
    | true => simp [constBits, bitsOf, Bit.eval]
    | false => simpa [constBits, bitsOf] using eval_const_odd z val
  | succ n ih =>
    rw [constBits, List.map_cons, ih, eval_const_odd, bitsOf, List.cons_append,
      Int.ediv_ediv_of_nonneg (by decide), ← pow_succ']

section
variable {target : Target} {z : ℕ → ℤ}

theorem converts_constBits (c : ℤ) :
    Converts target c (value target.signed
      ((constBits target.signed c target.bits c).map (Bit.eval z))) ↔
      (target.signed = true → (c / 2 ^ (target.bits - 1) % 2 = 1 ↔ c < 0)) := by
  obtain ⟨signed, bits, pos⟩ := target
  obtain ⟨n, rfl⟩ := Nat.exists_eq_add_of_le' pos
  have hmap := map_constBits z signed c n c
  have hbit : IsBit (if signed then (if c < 0 then 1 else 0) else c / 2 ^ n % 2) := by
    cases signed with
    | false => exact isBit_emod_two _
    | true => by_cases hc : c < 0 <;> simp [IsBit, hc]
  have hmem : value signed ((constBits signed c (n + 1) c).map (Bit.eval z)) ∈
      (Target.mk signed (n + 1) pos).type := by
    refine @Target.value_mem ⟨signed, n + 1, pos⟩ _ ?_ (by simp [length_constBits])
    rw [hmap]
    exact Bits.append.2 ⟨bits_bitsOf n c, List.forall_mem_singleton.2 hbit⟩
  have hconverts : Converts ⟨signed, n + 1, pos⟩ c
      (value signed ((constBits signed c (n + 1) c).map (Bit.eval z))) ↔
      value signed ((constBits signed c (n + 1) c).map (Bit.eval z)) ≡ c [ZMOD 2 ^ (n + 1)] :=
    ⟨fun h => h.modEq, fun h => ⟨hmem, h⟩⟩
  rw [hconverts, hmap, Nat.add_sub_cancel]
  cases signed with
  | false =>
    rw [if_neg Bool.false_ne_true, ← bitsOf_concat]
    exact ⟨fun _ => nofun, fun _ => unsigned_bitsOf_modEq (n + 1) c⟩
  | true =>
    rw [if_pos rfl, value_true, signed_bitsOf_modEq]
    by_cases hc : c < 0
    · rw [if_pos hc]
      simp only [hc, iff_true, true_implies]
      omega
    · rw [if_neg hc]
      simp only [hc, iff_false, true_implies]
      omega

theorem converts_self {v : ℤ} (h : v ∈ target.type) : Converts target v v := ⟨h, Int.ModEq.refl _⟩

/-- A bit string that encodes a number becomes its conversion. -/
theorem BitString.Encodes.converts {L : Lookup ℤ} (hL : L.Holds z) {bs : BitString} {v : ℤ}
    (h : bs.Encodes z v) :
    Converts target v (((bs.translate target.type).toPolynomial L).eval z) := by
  obtain ⟨hbits, hmod⟩ := h.translate target.type
  rw [BitString.eval_toPolynomial hL]
  rw [Target.getBits_type] at hmod
  refine ⟨?_, hmod⟩
  have hsign : (bs.translate target.type).encoding.isSigned = target.signed := Target.isSigned_type
  rw [hsign]
  refine Target.value_mem hbits ?_
  rw [List.length_map, (bs.translate target.type).length_bits]
  exact Target.getBits_type

/-- The new variables encode the variable that was split. -/
theorem splitBitString_encodes {type : RestrictedIntType} {fresh x : ℕ}
    (h : SplitStatement.Holds z ⟨type, x, freshBits type fresh⟩) :
    (splitBitString type fresh).Encodes z (z x) := by
  have hmap : (splitBitString type fresh).bits.map (Bit.eval z) = (freshBits type fresh).map z := by
    rw [splitBitString, List.map_map]
    rfl
  exact ⟨hmap ▸ h.bits, by rw [hmap]; exact h.value_eq⟩

end

/-- A cast is right for every variable, and for a constant just if its sign is the last bit where it
has to be cut to a signed target. -/
theorem correct_iff (target : Target) (op : Operand) :
    Correct target op ↔ SignIsLastBit target op := by
  cases hsub : op.type.isSubType target.type with
  | true =>
    have hinline : ∀ fresh, inlineOp target fresh op = (.operand op, []) := fun fresh => if_pos hsub
    constructor
    · intro _
      cases op with
      | const c type mem =>
        intro _ hnot
        rw [Operand.type] at hsub
        rw [hsub] at hnot
        cases hnot
      | lval x type bitString => trivial
    · intro _ L fresh z _ hop _
      rw [hinline]
      refine converts_self (RestrictedIntType.mem_of_isSubType hsub ?_)
      cases op with
      | const c type mem => exact mem
      | lval x type bitString => exact hop.1
  | false =>
    have hinline : ∀ fresh, inlineOp target fresh op =
        (toBitString target.type fresh op).map .bitString id := fun fresh => if_neg (by simp [hsub])
    cases op with
    | const c type mem =>
      have heval : ∀ L fresh z, L.Holds z →
          (inlineOp target fresh (.const c type mem)).1.eval L z =
            value target.signed ((constBits target.signed c target.bits c).map (Bit.eval z)) := by
        intro L fresh z hL
        have hpoly := BitString.eval_toPolynomial hL (constBitString target.type c)
        rw [hinline]
        simpa [toBitString, Result.eval, constBitString] using hpoly
      constructor
      · intro h hsigned _
        have hL := intLookup_holds fun _ => (0 : ℤ)
        have hconv := h _ 0 _ hL trivial (by rw [hinline]; exact List.forall_mem_nil _)
        rw [heval _ _ _ hL] at hconv
        exact (converts_constBits c).1 hconv hsigned
      · intro h L fresh z hL _ _
        rw [heval L fresh z hL]
        exact (converts_constBits c).2 fun hsigned => h hsigned hsub
    | lval x type bitString =>
      refine ⟨fun _ => trivial, fun _ L fresh z hL hop hsplit => ?_⟩
      rw [hinline] at hsplit ⊢
      cases bitString with
      | some bs => exact BitString.Encodes.converts hL (hop.2 bs rfl)
      | none =>
        exact BitString.Encodes.converts hL
          (splitBitString_encodes (hsplit _ (List.mem_singleton.2 rfl)))

/-- `(int8) 200` becomes `72`. -/
theorem int8_of_two_hundred :
    ¬ Correct ⟨true, 8, by decide⟩ (.const 200 (constType 200) (mem_constType 200)) := by
  intro h
  have hconv := h _ 0 _ (intLookup_holds fun _ => 0) trivial (List.forall_mem_nil _)
  have heval : (inlineOp ⟨true, 8, by decide⟩ 0
    (.const 200 (constType 200) (mem_constType 200))).1.eval
      intLookup (fun _ => 0) = 72 := by decide
  rw [heval] at hconv
  exact absurd hconv.modEq (by decide)

end CStyleCast

end Frontend

end Pequin
