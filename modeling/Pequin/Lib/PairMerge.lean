import Mathlib.Algebra.Group.Nat.Defs
import Mathlib.Tactic.Common

/-!
# Merging neighbours in place

A list is merged in rounds. Each round merges the elements `2i` and `2i + 1` and stores the result
at `i`, and half as many elements are left for the next one. An element that has no neighbour is
dropped.

An invariant of the list that is kept if two neighbours are replaced by their merge holds at the end
of the first element and the dropped ones. If the length is a power of two, none is dropped.
-/

namespace PairMerge

universe u

variable {α σ : Type u} (combine : α → α → σ → Option (α × σ))

/-- The merge that is stored at one position. -/
def mergeAt (s : List α × σ) (i : ℕ) : Option (List α × σ) := do
  let x ← s.1[2 * i]?
  let y ← s.1[2 * i + 1]?
  let (z, t) ← combine x y s.2
  some (s.1.set i z, t)

def mergeRound (m : ℕ) (s : List α × σ) : Option (List α × σ) :=
  (List.range m).foldlM (mergeAt combine) s

/-- The rounds, where `m` is the number of merges of the first one. -/
def mergeLevels (m : ℕ) (s : List α × σ) : Option (List α × σ) :=
  if m = 0 then some s else (mergeRound combine m s).bind (mergeLevels (m / 2))
termination_by m
decreasing_by omega

variable {combine} {Inv : σ → List α → Prop}

/-- Two neighbours can be merged, and this keeps the invariant. -/
def Merges (combine : α → α → σ → Option (α × σ)) (Inv : σ → List α → Prop) : Prop :=
  ∀ ⦃t pre x y post⦄, Inv t (pre ++ x :: y :: post) →
    ∃ z t', combine x y t = some (z, t') ∧ Inv t' (pre ++ z :: post)

/-- In the middle of a round, the list has the merged elements, those still to be merged in this
round, and the dropped ones. -/
theorem Merges.round (h : Merges combine Inv) {l rest : List α} {t : σ} {m k : ℕ} (hk : k ≤ m)
    (hm : 2 * m ≤ l.length) (hinv : Inv t (l.take (2 * m) ++ rest)) :
    ∃ l' t', mergeRound combine k (l, t) = some (l', t') ∧ l'.length = l.length ∧
      l'.drop k = l.drop k ∧ Inv t' (l'.take k ++ ((l.take (2 * m)).drop (2 * k) ++ rest)) := by
  induction k with
  | zero => exact ⟨l, t, rfl, rfl, rfl, hinv⟩
  | succ k ih =>
    obtain ⟨l', t', hrun, hlen, hdrop, hinv⟩ := ih (by omega)
    have hget (j : ℕ) (hj : k ≤ j) : l'[j]? = l[j]? := by
      have := congrArg (·[j - k]?) hdrop
      simpa only [List.getElem?_drop, Nat.add_sub_cancel' hj] using this
    have hnext : (l.take (2 * m)).drop (2 * k) =
        l[2 * k] :: l[2 * k + 1] :: (l.take (2 * m)).drop (2 * (k + 1)) := by
      rw [List.drop_eq_getElem_cons (by rw [List.length_take]; omega),
        List.drop_eq_getElem_cons (by rw [List.length_take]; omega), List.getElem_take,
        List.getElem_take]
      rfl
    rw [hnext] at hinv
    obtain ⟨z, t'', hz, hinv⟩ := h hinv
    have hx : l'[2 * k]? = some l[2 * k] := by rw [hget _ (by omega), List.getElem?_eq_getElem]
    have hy : l'[2 * k + 1]? = some l[2 * k + 1] := by
      rw [hget _ (by omega), List.getElem?_eq_getElem]
    refine ⟨l'.set k z, t'', ?_, by rw [List.length_set, hlen], ?_, ?_⟩
    · rw [mergeRound, List.range_succ, List.foldlM_append]
      have hrun : (List.range k).foldlM (mergeAt combine) (l, t) = some (l', t') := hrun
      rw [hrun, Option.bind_eq_bind, Option.bind_some, List.foldlM_cons, mergeAt, hx, hy]
      simp only [Option.bind_eq_bind, Option.bind_some, hz]
      rfl
    · rw [List.drop_set_of_lt (by omega), ← List.drop_drop, hdrop, List.drop_drop]
    · rw [List.take_succ_eq_append_getElem (by rw [List.length_set]; omega), List.getElem_set_self,
        List.take_set_of_le (Nat.le_refl _), List.append_assoc]
      exact hinv

/-- The rounds end with one element and the dropped ones. -/
theorem Merges.levels (h : Merges combine Inv) {l rest : List α} {t : σ} {m : ℕ} (hpos : 0 < m)
    (hm : 2 * m ≤ l.length) (hinv : Inv t (l.take (2 * m) ++ rest)) :
    ∃ z l' t' dropped, mergeLevels combine m (l, t) = some (z :: l', t') ∧ Inv t' (z :: dropped) ∧
      (rest = [] → ∀ d, m = 2 ^ d → dropped = []) := by
  induction m using Nat.strongRecOn generalizing l t rest with
  | ind m ih =>
    obtain ⟨l', t', hrun, hlen, -, hinv⟩ := h.round (Nat.le_refl _) hm hinv
    rw [List.drop_of_length_le (by rw [List.length_take]; omega), List.nil_append] at hinv
    rw [mergeLevels, if_neg (by omega), hrun, Option.bind_some]
    rcases Nat.lt_or_ge 1 m with hone | hone
    · have hsplit : l'.take m = l'.take (2 * (m / 2)) ++ (l'.take m).drop (2 * (m / 2)) := by
        conv_lhs => rw [← List.take_append_drop (2 * (m / 2)) (l'.take m)]
        rw [List.take_take, Nat.min_eq_left (by omega)]
      rw [hsplit, List.append_assoc] at hinv
      obtain ⟨z, l'', t'', dropped, hlevels, hinv, hdropped⟩ :=
        ih (m / 2) (by omega) (by omega) (by omega) hinv
      refine ⟨z, l'', t'', dropped, hlevels, hinv, fun hrest d hd => ?_⟩
      obtain _ | d := d
      · omega
      · have hhalf : m = 2 * 2 ^ d := by rw [hd, Nat.pow_succ, Nat.mul_comm]
        refine hdropped ?_ d (by omega)
        rw [hrest, List.append_nil, List.drop_of_length_le]
        rw [List.length_take]
        omega
    · obtain rfl : m = 1 := by omega
      obtain _ | ⟨z, l''⟩ := l'
      · rw [List.length_nil] at hlen
        omega
      · refine ⟨z, l'', t', rest, by rw [mergeLevels, if_pos rfl], hinv, fun hrest _ _ => hrest⟩

/-- All elements of a list that is not empty are merged. -/
theorem Merges.all (h : Merges combine Inv) {l : List α} {t : σ} (hl : l ≠ []) (hinv : Inv t l) :
    ∃ z l' t' dropped, mergeLevels combine (l.length / 2) (l, t) = some (z :: l', t') ∧
      Inv t' (z :: dropped) ∧ ∀ d, l.length = 2 ^ d → dropped = [] := by
  obtain _ | ⟨x, _ | ⟨y, l⟩⟩ := l
  · exact absurd rfl hl
  · exact ⟨x, [], t, [], by rw [mergeLevels, List.length_singleton, if_pos (by omega)],
      hinv, fun _ _ => rfl⟩
  · have hlen : (x :: y :: l).length = l.length + 2 := rfl
    rw [hlen]
    have hinv' : Inv t ((x :: y :: l).take (2 * ((l.length + 2) / 2)) ++
        (x :: y :: l).drop (2 * ((l.length + 2) / 2))) := by rwa [List.take_append_drop]
    obtain ⟨z, l', t', dropped, hlevels, hinv, hdropped⟩ := h.levels (by omega) (by omega) hinv'
    refine ⟨z, l', t', dropped, hlevels, hinv, fun d hd => ?_⟩
    obtain _ | d := d
    · omega
    · have hhalf : l.length + 2 = 2 * 2 ^ d := by rw [hd, Nat.pow_succ, Nat.mul_comm]
      exact hdropped (List.drop_of_length_le (by omega)) d (by omega)

end PairMerge
