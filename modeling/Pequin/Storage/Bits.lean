import Mathlib.Algebra.Group.Nat.Defs
import Mathlib.Data.Fin.VecNotation
import Mathlib.Data.Fintype.Basic
import Mathlib.Data.List.GetD
import Mathlib.Tactic.FinCases

/-!
# Bits and bytes

The keys and values of a block store are strings of bits, and a database has strings of bytes. A
string of bits is cut to whole bytes.
-/

namespace Pequin.Storage

abbrev Bits := List Bool

def uint32 (n : ℕ) : ℕ := n % 2 ^ 32

theorem uint32_of_lt {n : ℕ} (h : n < 2 ^ 32) : uint32 n = n := Nat.mod_eq_of_lt h

/-- Bit `j` of a byte has the weight `2^j`. -/
def byteOfBits (bit : Fin 8 → Bool) : UInt8 :=
  (List.finRange 8).foldl (fun chunk (j : Fin 8) => chunk ||| ((bit j).toUInt8 <<< j.val.toUInt8)) 0

def bitOfByte (chunk : UInt8) (j : Fin 8) : Bool := chunk >>> j.val.toUInt8 &&& 1 == 1

/-- `BitsToByteArray` for as many bytes as the bits fill. -/
def bitsToByteArray (bits : Bits) : List UInt8 :=
  (List.range (bits.length / 8)).map fun i : ℕ => byteOfBits fun j => bits.getD (i * 8 + j) false

/-- `ByteArrayToBits` into as many bits as the bytes have. -/
def byteArrayToBits (bytes : List UInt8) : Bits :=
  bytes.flatMap fun chunk => List.ofFn (bitOfByte chunk)

theorem bitOfByte_byteOfBits (bit : Fin 8 → Bool) : bitOfByte (byteOfBits bit) = bit := by
  have hall : ∀ b₀ b₁ b₂ b₃ b₄ b₅ b₆ b₇ : Bool, ∀ j,
      bitOfByte (byteOfBits ![b₀, b₁, b₂, b₃, b₄, b₅, b₆, b₇]) j =
        ![b₀, b₁, b₂, b₃, b₄, b₅, b₆, b₇] j := by decide +kernel
  have hbit : bit = ![bit 0, bit 1, bit 2, bit 3, bit 4, bit 5, bit 6, bit 7] := by
    funext j
    fin_cases j <;> rfl
  rw [hbit]
  exact funext (hall _ _ _ _ _ _ _ _)

/-- The bits that do not fill a byte are lost. -/
theorem byteArrayToBits_bitsToByteArray (bits : Bits) :
    byteArrayToBits (bitsToByteArray bits) = bits.take (bits.length / 8 * 8) := by
  rw [byteArrayToBits, bitsToByteArray, List.flatMap_map]
  simp only [bitOfByte_byteOfBits]
  have hprefix (n : ℕ) (hn : n ≤ bits.length / 8) :
      ((List.range n).flatMap fun i : ℕ => List.ofFn fun j : Fin 8 => bits.getD (i * 8 + j) false) =
        bits.take (n * 8) := by
    induction n with
    | zero => rw [Nat.zero_mul, List.take_zero]; rfl
    | succ n ih =>
      have hbyte : (List.ofFn fun j : Fin 8 => bits.getD (n * 8 + j) false) =
          (bits.drop (n * 8)).take 8 := by
        refine List.ext_getElem ?_ fun j hj hj' => ?_
        · rw [List.length_ofFn, List.length_take, List.length_drop]
          omega
        · rw [List.length_ofFn] at hj
          rw [List.getElem_ofFn, List.getElem_take, List.getElem_drop, List.getD_eq_getElem]
      rw [List.range_succ, List.flatMap_append, ih (by omega), List.flatMap_singleton, hbyte,
        Nat.succ_mul, List.take_add]
  exact hprefix _ le_rfl

theorem byteArrayToBits_of_dvd {bits : Bits} (h : 8 ∣ bits.length) :
    byteArrayToBits (bitsToByteArray bits) = bits := by
  rw [byteArrayToBits_bitsToByteArray, Nat.div_mul_cancel h, List.take_length]

end Pequin.Storage
