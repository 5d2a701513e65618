import Pequin.Frontend.Bitwise

/-!
# Splitting a variable whose bits are known

A `SplitStatement` of a variable that has a bit string, or is assigned from a variable that has one,
becomes one assignment for each bit that is asked for. The code computes a zero for the bits past
the end of the string and then reads the string all the same, so it fails for each longer encoding.
-/

namespace Pequin

namespace Frontend

open TwosComplement

/-- A variable with the bit string that is recorded for it, and the right sides of its assignment
that resolve to a variable. -/
inductive LvalExpression where
  | mk (line : ℕ) (bitString : Option BitString) (rhs : List LvalExpression)

namespace LvalExpression

def line : LvalExpression → ℕ
  | mk line _ _ => line

/-- The shorter one of two candidates; the first one if they have the same length. -/
def keepShortest : (now cand : Option BitString) → Option BitString
  | now, none => now
  | none, some cand => some cand
  | some now, some cand => if now.bits.length > cand.bits.length then some cand else some now

mutual

def getInlinedBitString : LvalExpression → Option BitString
  | mk _ bitString rhs => inlineCandidates bitString rhs

/-- The loop of `getInlinedBitString` over the right sides. -/
def inlineCandidates (now : Option BitString) : List LvalExpression → Option BitString
  | [] => now
  | q :: rhs => inlineCandidates (keepShortest now q.getInlinedBitString) rhs

end

/-- The recorded strings hold the value of the variable, and so do the variables it is assigned
from. -/
inductive Holds (z : ℕ → ℤ) : LvalExpression → Prop
  | mk {line bitString rhs} : (∀ bs ∈ bitString, bs.Encodes z (z line)) →
      (∀ q ∈ rhs, q.Holds z) → (∀ q ∈ rhs, z q.line = z line) →
      Holds z (mk line bitString rhs)

theorem keepShortest_cases (now cand : Option BitString) :
    keepShortest now cand = now ∨ keepShortest now cand = cand := by
  cases cand with
  | none => cases now <;> exact .inl rfl
  | some c =>
    cases now with
    | none => exact .inr rfl
    | some n =>
      rw [keepShortest]
      split
      · exact .inr rfl
      · exact .inl rfl

theorem inlineCandidates_mem {P : BitString → Prop} {now : Option BitString}
    {rhs : List LvalExpression} (hnow : ∀ bs ∈ now, P bs)
    (hrhs : ∀ q ∈ rhs, ∀ bs ∈ q.getInlinedBitString, P bs) :
      ∀ bs ∈ inlineCandidates now rhs, P bs := by
  induction rhs generalizing now with
  | nil => exact hnow
  | cons q rhs ih =>
    refine ih ?_ fun q' hq' => hrhs q' (List.mem_cons_of_mem _ hq')
    rcases keepShortest_cases now q.getInlinedBitString with h | h
    · rwa [h]
    · rw [h]
      exact hrhs q List.mem_cons_self

/-- The string that is found holds the value of the variable. -/
theorem Holds.encodes {z : ℕ → ℤ} {l : LvalExpression} (h : l.Holds z) :
    ∀ bs ∈ l.getInlinedBitString, bs.Encodes z (z l.line) := by
  induction h with
  | mk hbits _ hline ih =>
    refine inlineCandidates_mem hbits fun q hq bs hbs => ?_
    rw [line, ← hline q hq]
    exact ih q hq bs hbs

end LvalExpression

namespace SplitStatement

/-- What is split: a constant, or a variable. -/
inductive ToSplit where
  | const (c : ℤ)
  | lval (l : LvalExpression)

/-- The assignments of the loop over the sub-bits, from bit `i` on; an index past the end of the
string fails. -/
def subStatements (bits : List Bit) : (i : ℕ) → (splitBits : List ℕ) → Option (List (ℕ × Bit))
  | _, [] => some []
  | i, x :: splitBits => do
    let b ← bits[i]?
    let rest ← subStatements bits (i + 1) splitBits
    some ((x, b) :: rest)

/-- What a split becomes: assignments of its bits, or the statement itself. -/
inductive Emitted where
  | assignments (statements : List (ℕ × Bit))
  | split (s : SplitStatement)

/-- `toAssignmentStatements_NoChangeRef`, where the sub-bits have the output lines from `fresh` on.
The zero that it computes for an index past the end of a recorded string is not used. -/
def toAssignmentStatements (encoding : RestrictedIntType) (fresh : ℕ) : ToSplit → Option Emitted
  | .const c =>
    (subStatements (constBitString encoding c).bits 0 (freshBits encoding fresh)).map .assignments
  | .lval l =>
    match l.getInlinedBitString with
    | some bs => (subStatements bs.bits 0 (freshBits encoding fresh)).map .assignments
    | none => some (.split ⟨encoding, l.line, freshBits encoding fresh⟩)

def Emitted.Holds (z : ℕ → ℤ) : Emitted → Prop
  | .assignments statements => ∀ s ∈ statements, z s.1 = s.2.eval z
  | .split s => s.Holds z

variable {splitBits : List ℕ}

theorem subStatements_eq_some {bits : List Bit} {i : ℕ} (h : i + splitBits.length ≤ bits.length) :
    subStatements bits i splitBits = some (splitBits.zip (bits.drop i)) := by
  induction splitBits generalizing i with
  | nil => rfl
  | cons x splitBits ih =>
    rw [List.length_cons] at h
    have hlt : i < bits.length := by omega
    rw [subStatements, ih (by omega), List.getElem?_eq_getElem hlt, List.drop_eq_getElem_cons hlt]
    rfl

theorem subStatements_eq_none {bits : List Bit} {i : ℕ} (hne : splitBits ≠ [])
    (h : bits.length < i + splitBits.length) : subStatements bits i splitBits = none := by
  induction splitBits generalizing i with
  | nil => exact absurd rfl hne
  | cons x splitBits ih =>
    rw [List.length_cons] at h
    rcases Nat.lt_or_ge i bits.length with hlt | hge
    · have hne' : splitBits ≠ [] := List.ne_nil_of_length_pos (by omega)
      rw [subStatements, ih hne' (by omega), List.getElem?_eq_getElem hlt]
      rfl
    · rw [subStatements, List.getElem?_eq_none hge]
      rfl

theorem length_freshBits (encoding : RestrictedIntType) (fresh : ℕ) :
    (freshBits encoding fresh).length = encoding.getBits := by
  rw [freshBits, List.length_map, List.length_range]

theorem freshBits_ne_nil (encoding : RestrictedIntType) (fresh : ℕ) :
    freshBits encoding fresh ≠ [] := by
  apply List.ne_nil_of_length_pos
  rw [length_freshBits]
  exact encoding.getBits_pos

/-- Assignments of a list of variables give them the values of the first bits. -/
theorem map_eq_of_assigned {z : ℕ → ℤ} {bits : List Bit} (hlen : splitBits.length ≤ bits.length)
    (h : ∀ s ∈ splitBits.zip bits, z s.1 = s.2.eval z) :
    splitBits.map z = (bits.take splitBits.length).map (Bit.eval z) := by
  induction splitBits generalizing bits with
  | nil => rfl
  | cons x splitBits ih =>
    cases bits with
    | nil => exact absurd hlen (Nat.not_succ_le_zero _)
    | cons b bits =>
      rw [List.zip_cons_cons, List.forall_mem_cons] at h
      rw [List.length_cons, List.take_succ_cons, List.map_cons, List.map_cons, h.1,
        ih (Nat.le_of_succ_le_succ hlen) h.2]

/-- The sub-bits are the bits of the word of the value, and no index fails. -/
def Correct (encoding : RestrictedIntType) (fresh : ℕ) (l : LvalExpression) : Prop :=
  ∃ out, toAssignmentStatements encoding fresh (.lval l) = some out ∧
    ∀ z, l.Holds z → out.Holds z →
      (freshBits encoding fresh).map z = ofWord (BitVec.ofInt encoding.getBits (z l.line))

/-- A split of a variable with known bits is right just if it asks for no more bits. -/
theorem correct_iff_length_le {l : LvalExpression} {bs : BitString}
    (hbs : l.getInlinedBitString = some bs) (encoding : RestrictedIntType) (fresh : ℕ) :
    Correct encoding fresh l ↔ encoding.getBits ≤ bs.bits.length := by
  have hout : toAssignmentStatements encoding fresh (.lval l) =
      (subStatements bs.bits 0 (freshBits encoding fresh)).map .assignments := by
    rw [toAssignmentStatements, hbs]
  constructor
  · rintro ⟨out, hsome, -⟩
    by_contra hlt
    rw [hout, subStatements_eq_none (freshBits_ne_nil _ _) (by rw [length_freshBits]; omega)]
      at hsome
    cases hsome
  · intro hle
    have hlen : (freshBits encoding fresh).length ≤ bs.bits.length := by rwa [length_freshBits]
    have hsub := subStatements_eq_some (i := 0) (by rwa [Nat.zero_add] : 0 + _ ≤ bs.bits.length)
    refine ⟨_, hout.trans (congrArg _ hsub), fun z hl hassigned => ?_⟩
    rw [map_eq_of_assigned hlen hassigned, length_freshBits,
      ← (hl.encodes bs hbs).map_translate encoding, BitString.bits_translate,
        translateBits_of_le hle]

/-- Two bits of a string of four. -/
theorem correct_of_four_bits : Correct (.uint 2) 5 (.mk 0 (some (splitBitString (.uint 4) 1)) []) :=
  (correct_iff_length_le rfl _ _).2 (by decide)

/-- The variable has four known bits, and eight are asked for. -/
theorem toAssignmentStatements_eight_of_four :
    toAssignmentStatements (.uint 8) 5 (.lval (.mk 0 (some (splitBitString (.uint 4) 1)) [])) =
      none ∧ LvalExpression.Holds (fun _ => 0) (.mk 0 (some (splitBitString (.uint 4) 1)) []) := by
  refine ⟨by rfl, .mk ?_ (List.forall_mem_nil _) (List.forall_mem_nil _)⟩
  rintro bs ⟨⟩
  exact ⟨(by decide : ∀ b ∈ ([0, 0, 0, 0] : List ℤ), b = 0 ∨ b = 1), by decide⟩

end SplitStatement

end Frontend

end Pequin
