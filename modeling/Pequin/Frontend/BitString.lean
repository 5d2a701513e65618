import Pequin.Frontend.Factors
import Pequin.Lib.TwosComplement

/-!
# Bit strings and casts

A `BitString` holds the bits of an integer of some type, the encoding. A constant is taken apart by
the compiler; a variable is split into new variables, whose number is that of the bits of its own
type, and the string is then truncated or extended to the encoding that is asked for. A C cast to an
integer type is the bit string of that type, read as a number again.

The last bit of the string of a constant is its sign if the encoding is signed, also where the
constant does not fit the encoding.
-/

namespace Pequin

namespace Frontend

open TwosComplement

/-! ## The code -/

/-- A bit is known, or it is a variable. -/
inductive Bit where
  | const (b : Bool)
  | lval (x : ℕ)

structure BitString where
  encoding : RestrictedIntType
  bits : List Bit
  length_bits : bits.length = encoding.getBits

/-- The bits of `newBits` positions: the old ones, and copies of the sign or zeros. -/
def translateBits (bits : List Bit) (signedOld : Bool) (lengthNew : ℕ) : List Bit :=
  (List.range lengthNew).map fun i =>
    if i < bits.length then bits.getD i (.const false)
    else if signedOld then bits.getD (bits.length - 1) (.const false)
    else .const false

def BitString.translate (bs : BitString) (encoding : RestrictedIntType) : BitString where
  encoding := encoding
  bits := translateBits bs.bits bs.encoding.isSigned encoding.getBits
  length_bits := by rw [translateBits, List.length_map, List.length_range]

/-- The loop of `toBitString_` for the constant `cv`: `val` is shifted, and the last bit of a signed
encoding is the sign. -/
def constBits (signed : Bool) (cv : ℤ) : ℕ → ℤ → List Bit
  | 0, _ => []
  | 1, val => [.const (if signed then cv < 0 else val % 2 = 1)]
  | n + 2, val => .const (val % 2 = 1) :: constBits signed cv (n + 1) (val / 2)

theorem length_constBits (signed : Bool) (cv : ℤ) (n : ℕ) (val : ℤ) :
    (constBits signed cv n val).length = n := by
  induction n generalizing val with
  | zero => rfl
  | succ n ih =>
    cases n with
    | zero => rfl
    | succ n => rw [constBits, List.length_cons, ih]

/-- The bits `splitBits` of a variable, as a statement of the circuit. -/
structure SplitStatement where
  bitwiseEncoding : RestrictedIntType
  toSplit : ℕ
  splitBits : List ℕ

def constBitString (encoding : RestrictedIntType) (c : ℤ) : BitString where
  encoding := encoding
  bits := constBits encoding.isSigned c encoding.getBits c
  length_bits := length_constBits _ _ _ _

/-- The new variables for the bits of a variable have the next output lines. -/
def freshBits (type : RestrictedIntType) (fresh : ℕ) : List ℕ :=
  (List.range type.getBits).map (fresh + ·)

def splitBitString (type : RestrictedIntType) (fresh : ℕ) : BitString where
  encoding := type
  bits := (freshBits type fresh).map .lval
  length_bits := by rw [List.length_map, freshBits, List.length_map, List.length_range]

section
variable (L : Lookup ℤ)

def PolynomialTerm.addBit (t : PolynomialTerm ℤ) : Bit → PolynomialTerm ℤ
  | .const b => t.addConst (if b then 1 else 0)
  | .lval x => t.addLval L x

/-- The loop of `toPolynomialExpression` for bit strings: the weight `pot` doubles, and the last one
is negative if the encoding is signed. -/
def addBits (signed : Bool) : PolynomialExpression ℤ → ℤ → List Bit → PolynomialExpression ℤ
  | pe, _, [] => pe
  | pe, pot, [b] => pe.addMultiplesOfTerm (if signed then -pot else pot)
      (PolynomialTerm.one.addBit L b)
  | pe, pot, b :: c :: bs =>
    addBits signed (pe.addMultiplesOfTerm pot (PolynomialTerm.one.addBit L b)) (2 * pot) (c :: bs)

def BitString.toPolynomial (bs : BitString) : PolynomialExpression ℤ :=
  addBits L bs.encoding.isSigned .zero 1 bs.bits

end

/-! ## Values -/

def Bit.eval (z : ℕ → ℤ) : Bit → ℤ
  | .const b => if b then 1 else 0
  | .lval x => z x

/-- The values of the bits are bits, and they are those of the number `v`. -/
structure BitString.Encodes (z : ℕ → ℤ) (bs : BitString) (v : ℤ) : Prop where
  bits : Bits (bs.bits.map (Bit.eval z))
  value_eq : value bs.encoding.isSigned (bs.bits.map (Bit.eval z)) = v

/-- The constraint of a split: the new variables are bits, and they are those of the variable. -/
structure SplitStatement.Holds (z : ℕ → ℤ) (s : SplitStatement) : Prop where
  bits : Bits (s.splitBits.map z)
  value_eq : value s.bitwiseEncoding.isSigned (s.splitBits.map z) = z s.toSplit

theorem PolynomialTerm.eval_addBit {L : Lookup ℤ} {z : ℕ → ℤ} (h : L.Holds z) (t : PolynomialTerm ℤ)
    (b : Bit) : (t.addBit L b).eval z = t.eval z * b.eval z := by
  cases b with
  | const b =>
    rw [addBit, eval_addConst]
    rfl
  | lval x => exact eval_addLval h t x

theorem eval_addBits {L : Lookup ℤ} {z : ℕ → ℤ} (h : L.Holds z) (signed : Bool)
    (pe : PolynomialExpression ℤ) (pot : ℤ) (bs : List Bit) :
    (addBits L signed pe pot bs).eval z =
      pe.eval z + pot * value signed (bs.map (Bit.eval z)) := by
  induction bs generalizing pe pot with
  | nil => cases signed <;> simp [addBits, value, TwosComplement.signed, unsigned]
  | cons b bs ih =>
    cases bs with
    | nil =>
      rw [addBits, PolynomialExpression.eval_addMultiplesOfTerm, PolynomialTerm.eval_addBit h]
      cases signed <;> simp [value, TwosComplement.signed, unsigned]
    | cons c bs =>
      rw [addBits, ih, PolynomialExpression.eval_addMultiplesOfTerm, PolynomialTerm.eval_addBit h]
      cases signed <;>
        simp only [value_true, value_false, List.map_cons, TwosComplement.signed, unsigned,
          PolynomialTerm.eval_one, eq_intCast, Int.cast_id] <;> ring

/-- A bit string is read as the number that its bits encode. -/
theorem BitString.eval_toPolynomial {L : Lookup ℤ} {z : ℕ → ℤ} (h : L.Holds z) (bs : BitString) :
    (bs.toPolynomial L).eval z = value bs.encoding.isSigned (bs.bits.map (Bit.eval z)) := by
  rw [toPolynomial, eval_addBits h, PolynomialExpression.eval_zero, zero_add, one_mul]

/-! ## Translation -/

theorem translateBits_of_le {bits : List Bit} {n : ℕ} (h : n ≤ bits.length) (signedOld : Bool) :
    translateBits bits signedOld n = bits.take n := by
  refine List.ext_getElem (by simp [translateBits, h]) fun i hi hi' => ?_
  have hlt : i < bits.length := by
    rw [List.length_take] at hi'
    omega
  simp [translateBits, hlt]

theorem translateBits_of_ge {bits : List Bit} {n : ℕ} (h : bits.length ≤ n) (signedOld : Bool) :
    translateBits bits signedOld n = bits ++ List.replicate (n - bits.length)
      (if signedOld then bits.getLastD (.const false) else .const false) := by
  refine List.ext_getElem (by simp [translateBits, h]) fun i hi hi' => ?_
  by_cases hlt : i < bits.length
  · simp [translateBits, hlt]
  · rw [List.getElem_append_right (not_lt.1 hlt), List.getElem_replicate]
    simp [translateBits, hlt, List.getLastD_eq_getLast?, List.getLast?_eq_getElem?]

theorem BitString.bits_translate (bs : BitString) (encoding : RestrictedIntType) :
    (bs.translate encoding).bits = translateBits bs.bits bs.encoding.isSigned encoding.getBits :=
      rfl

theorem BitString.bits_ne_nil (bs : BitString) : bs.bits ≠ [] := by
  have hlen := bs.length_bits
  have hpos := bs.encoding.getBits_pos
  rintro hnil
  rw [hnil, List.length_nil] at hlen
  omega

section
variable {z : ℕ → ℤ} {v : ℤ}

theorem eval_getLastD (bits : List Bit) :
    (bits.getLastD (.const false)).eval z = (bits.map (Bit.eval z)).getLastD 0 := by
  rw [List.getLastD_eq_getLast?, List.getLastD_eq_getLast?, List.getLast?_map]
  cases bits.getLast? with
  | none => rfl
  | some b => rfl

/-- The first bits of an encoded number, or its extension, are the number modulo the power of
two. -/
theorem BitString.Encodes.translate {bs : BitString} (h : bs.Encodes z v)
    (encoding : RestrictedIntType) :
    Bits ((bs.translate encoding).bits.map (Bit.eval z)) ∧
      value encoding.isSigned ((bs.translate encoding).bits.map (Bit.eval z)) ≡ v
        [ZMOD 2 ^ encoding.getBits] := by
  set old := bs.bits.map (Bit.eval z) with hold
  have hlen : ((bs.translate encoding).bits.map (Bit.eval z)).length = encoding.getBits := by
    rw [List.length_map, (bs.translate encoding).length_bits]
    rfl
  have hne : old ≠ [] := by simpa [hold] using bs.bits_ne_nil
  have hmod := value_modEq encoding.isSigned ((bs.translate encoding).bits.map (Bit.eval z))
  rw [hlen] at hmod
  rcases le_total encoding.getBits bs.bits.length with hle | hge
  · -- the string is truncated
    have hbits : (bs.translate encoding).bits.map (Bit.eval z) = old.take encoding.getBits := by
      rw [bs.bits_translate, translateBits_of_le hle, List.map_take]
    rw [hbits] at hmod ⊢
    refine ⟨fun b hb => h.bits b (List.mem_of_mem_take hb), hmod.trans ?_⟩
    rw [← h.value_eq]
    exact unsigned_take_modEq _ (by simpa [hold] using hle)
  · -- it is extended by the sign or by zeros
    have hbits : (bs.translate encoding).bits.map (Bit.eval z) =
        extend bs.encoding.isSigned old (encoding.getBits - bs.bits.length) := by
      rw [bs.bits_translate, translateBits_of_ge hge, List.map_append, List.map_replicate, extend]
      cases bs.encoding.isSigned with
      | false => rfl
      | true => rw [if_pos rfl, if_pos rfl, eval_getLastD]
    rw [hbits] at hmod hlen ⊢
    have hext := value_modEq bs.encoding.isSigned
      (extend bs.encoding.isSigned old (encoding.getBits - bs.bits.length))
    rw [hlen, value_extend _ hne, h.value_eq] at hext
    refine ⟨Bits.append.2 ⟨h.bits, Bits.replicate ?_ _⟩, hmod.trans hext.symm⟩
    cases bs.encoding.isSigned with
    | false => exact .inl rfl
    | true =>
      rw [if_pos rfl, List.getLastD_eq_getLast?, List.getLast?_eq_some_getLast hne]
      exact h.bits _ (List.getLast_mem hne)

/-- The translated string has the bits of the word of the number. -/
theorem BitString.Encodes.map_translate {bs : BitString} {v : ℤ} (h : bs.Encodes z v)
    (encoding : RestrictedIntType) :
    (bs.translate encoding).bits.map (Bit.eval z) = ofWord (BitVec.ofInt encoding.getBits v) := by
  obtain ⟨hbits, hmod⟩ := h.translate encoding
  have hlen : ((bs.translate encoding).bits.map (Bit.eval z)).length = encoding.getBits := by
    rw [List.length_map, (bs.translate encoding).length_bits]
    rfl
  have hvalue := value_modEq encoding.isSigned ((bs.translate encoding).bits.map (Bit.eval z))
  rw [hlen] at hvalue
  exact eq_ofWord hbits hlen (hvalue.symm.trans hmod)

end

end Frontend

end Pequin
