import Mathlib.Data.List.Basic
import Mathlib.Tactic.Common

/-!
# Chaining a compression function

An input of any length is absorbed in blocks. Each block starts with what the blocks before were
compressed to. The block that the input does not fill ends with a stop symbol, and it is the last
one. An input that fills a block exactly is followed by a block that holds only the stop symbol.

The blocks are often put together in a buffer that is used again for each of them (`overwrite`).
-/

namespace Chain

variable {α β : Type}

/-- A compression function, the stop symbol, and the room for input in each block after the
first. -/
structure Format (α : Type) where
  compress : List α → List α
  stop : α
  space : ℕ
  space_pos : 0 < space

/-- Absorb `input`, where the first block starts with `pre` and has room for `room` symbols. -/
def Format.absorb (F : Format α) (pre : List α) (room : ℕ) (_hroom : 0 < room) (input : List α) :
    List α :=
  if input.length < room then F.compress (pre ++ input ++ [F.stop])
  else F.absorb (F.compress (pre ++ input.take room)) F.space F.space_pos (input.drop room)
termination_by input.length
decreasing_by
  rw [List.length_drop]
  omega

namespace Format
variable (F : Format α) {pre input : List α} {room : ℕ} {hroom : 0 < room}

theorem absorb_of_lt (h : input.length < room) :
    F.absorb pre room hroom input = F.compress (pre ++ input ++ [F.stop]) := by
  rw [absorb, if_pos h]

theorem absorb_of_le (h : room ≤ input.length) : F.absorb pre room hroom input =
    F.absorb (F.compress (pre ++ input.take room)) F.space F.space_pos (input.drop room) := by
  rw [absorb, if_neg (Nat.not_lt.2 h)]

variable {F}

/-- Symbols can be replaced before the input is absorbed or after. Only blocks of at most `m`
symbols are compressed. -/
theorem absorb_map {G : Format β} {φ : α → β} {m : ℕ} (hspace : G.space = F.space)
    (hstop : G.stop = φ F.stop)
    (hcompress : ∀ l, l.length ≤ m → G.compress (l.map φ) = (F.compress l).map φ)
    (hlen : ∀ l, (F.compress l).length + F.space ≤ m) (pre : List α) (room : ℕ) (hroom : 0 < room)
    (input : List α) (hpre : pre.length + room ≤ m) :
    G.absorb (pre.map φ) room hroom (input.map φ) = (F.absorb pre room hroom input).map φ := by
  induction pre, room, hroom, input using Format.absorb.induct F with
  | case1 pre room hroom input hlt =>
    rw [absorb_of_lt F hlt, absorb_of_lt G (by simpa using hlt), hstop]
    have hblock : (pre ++ input ++ [F.stop]).length ≤ m := by
      simp only [List.length_append, List.length_singleton]
      omega
    rw [← hcompress _ hblock]
    simp
  | case2 pre room hroom input hle ih =>
    rw [Nat.not_lt] at hle
    have hblock : (pre ++ input.take room).length ≤ m := by
      simp only [List.length_append, List.length_take]
      omega
    rw [absorb_of_le F hle, absorb_of_le G (by simpa using hle), ← ih (hlen _), ← hcompress _
      hblock, List.map_append, List.map_take, List.map_drop]
    congr 1

/-- What holds of every compressed block holds of the result. -/
theorem absorb_induction {P : List α → Prop} (h : ∀ l, P (F.compress l)) :
    P (F.absorb pre room hroom input) := by
  induction pre, room, hroom, input using Format.absorb.induct F with
  | case1 pre room hroom input hlt =>
    rw [absorb_of_lt F hlt]
    exact h _
  | case2 pre room hroom input hle ih =>
    rw [absorb_of_le F (Nat.not_lt.1 hle)]
    exact ih

/-- The last block of an input that is longer than the first block. -/
theorem absorb_eq_compress (hle : room ≤ input.length) {n : ℕ}
    (hlen : ∀ l, (F.compress l).length = n) :
    ∃ pre' : List α, pre'.length = n ∧ F.absorb pre room hroom input = F.compress
      (pre' ++ input.drop (input.length - (input.length - room) % F.space) ++ [F.stop]) := by
  induction pre, room, hroom, input using Format.absorb.induct F with
  | case1 pre room hroom input hlt => omega
  | case2 pre room hroom input _ ih =>
    rw [absorb_of_le F hle]
    by_cases hlast : (input.drop room).length < F.space
    · refine ⟨F.compress (pre ++ input.take room), hlen _, ?_⟩
      rw [List.length_drop] at hlast
      rw [absorb_of_lt F (by rwa [List.length_drop]), Nat.mod_eq_of_lt hlast]
      congr 4
      omega
    · rw [Nat.not_lt] at hlast
      obtain ⟨pre', hpre', heq⟩ := ih hlast
      refine ⟨pre', hpre', ?_⟩
      rw [heq, List.drop_drop, List.length_drop]
      rw [List.length_drop] at hlast
      have hmod : (input.length - room - F.space) % F.space = (input.length - room) % F.space := by
        rw [← Nat.mod_eq_sub_mod hlast]
      have hr := Nat.mod_lt (input.length - room) F.space_pos
      rw [hmod]
      congr 4
      omega

end Format

/-! ## Buffers -/

/-- The buffer with `src` written from position `start` on. -/
def overwrite (buf : List α) (start : ℕ) (src : List α) : List α :=
  buf.take start ++ src ++ buf.drop (start + src.length)

/-- A buffer that is filled from the front. -/
theorem prefix_overwrite {buf content : List α} (h : content <+: buf) (src : List α) :
    content ++ src <+: overwrite buf content.length src := by
  have htake : buf.take content.length = content := List.prefix_iff_eq_take.1 h |>.symm
  rw [overwrite, htake]
  exact List.prefix_append _ _

theorem take_overwrite {buf content : List α} (h : content <+: buf) (src : List α) :
    (overwrite buf content.length src).take (content.length + src.length) = content ++ src := by
  rw [← List.length_append]
  exact (List.prefix_iff_eq_take.1 (prefix_overwrite h src)).symm

section
variable {buf pre input : List α} {k room : ℕ} (hpre : pre <+: buf) (hk : pre.length = k)
include hpre hk

/-- The last block: the rest of the input is copied behind what is there, and then the stop. -/
theorem take_lastBlock (hlt : input.length < room) (stop : α) :
    (overwrite (overwrite buf k (input.take (min input.length room))) (k + input.length)
      [stop]).take (k + input.length + 1) = pre ++ input ++ [stop] := by
  subst hk
  rw [Nat.min_eq_left (Nat.le_of_lt hlt), List.take_length, ← List.length_append]
  exact take_overwrite (prefix_overwrite hpre input) [stop]

theorem take_fullBlock (hle : room ≤ input.length) :
    (overwrite buf k (input.take room)).take (k + room) = pre ++ input.take room := by
  have h := take_overwrite hpre (input.take room)
  rwa [List.length_take, Nat.min_eq_left hle, hk] at h

end

theorem prefix_overwrite_zero (buf src : List α) : src <+: overwrite buf 0 src :=
  prefix_overwrite (List.nil_prefix) src

end Chain
