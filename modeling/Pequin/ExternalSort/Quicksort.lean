import Mathlib.Algebra.Group.Int.Defs
import Mathlib.Algebra.Group.Nat.Defs
import Pequin.Lib.Rearrange

/-!
# Sorting a chunk in memory

The quicksort of the external sort: a partition around the middle entry with two indices that move
towards each other, and two recursive calls. A read outside of the buffer and an overflow of
`left + right` have no result in the model. Every loop has a bound on its iterations, which is never
reached.
-/

namespace Pequin.ExternalSort

open Rearrange

variable {α : Type}

/-- A comparator that orders the entries, up to ties. -/
structure TotalPreorder (cmp : α → α → ℤ) : Prop where
  neg_iff : ∀ a b, cmp a b < 0 ↔ 0 < cmp b a
  trans : ∀ a b c, cmp a b ≤ 0 → cmp b c ≤ 0 → cmp a c ≤ 0

theorem TotalPreorder.self {cmp : α → α → ℤ} (h : TotalPreorder cmp) (a : α) : cmp a a = 0 := by
  have := h.neg_iff a a
  omega

theorem TotalPreorder.le_of_nonneg {cmp : α → α → ℤ} (h : TotalPreorder cmp) {a b : α}
    (hab : 0 ≤ cmp a b) : cmp b a ≤ 0 := by
  have := h.neg_iff a b
  omega

def intMax : ℤ := 2 ^ 31 - 1

section
variable (cmp : α → α → ℤ) (m : ℕ)

/-- `while (comparator(buffer + i * entry_size, pivot) < 0) i++;` -/
def scanUp (buf : ℤ → α) (pivot : α) : ℕ → ℤ → Option ℤ
  | 0, _ => none
  | fuel + 1, i =>
    if 0 ≤ i ∧ i < m then
      if cmp (buf i) pivot < 0 then scanUp buf pivot fuel (i + 1) else some i
    else none

/-- `while (comparator(buffer + j * entry_size, pivot) > 0) j--;` -/
def scanDown (buf : ℤ → α) (pivot : α) : ℕ → ℤ → Option ℤ
  | 0, _ => none
  | fuel + 1, j =>
    if 0 ≤ j ∧ j < m then
      if cmp (buf j) pivot > 0 then scanDown buf pivot fuel (j - 1) else some j
    else none

/-- The three copies through `tmp_entry`. -/
def swapEntries (buf : ℤ → α) (i j : ℤ) : ℤ → α :=
  fun x => if x = j then buf i else if x = i then buf j else buf x

def partitionLoop (pivot : α) : ℕ → (ℤ → α) → ℤ → ℤ → Option ((ℤ → α) × ℤ)
  | 0, _, _, _ => none
  | fuel + 1, buf, i, j =>
    if i ≤ j then do
      let i ← scanUp cmp m buf pivot (m + 1) i
      let j ← scanDown cmp m buf pivot (m + 1) j
      if i ≤ j then partitionLoop pivot fuel (swapEntries buf i j) (i + 1) (j - 1)
      else partitionLoop pivot fuel buf i j
    else some (buf, i)

def quicksort : ℕ → (ℤ → α) → ℤ → ℤ → Option (ℤ → α)
  | 0, _, _, _ => none
  | fuel + 1, buf, left, right =>
    if left ≥ right then some buf
    else if left + right > intMax then none
    else do
      let pivot := buf ((left + right) / 2)
      let (buf, i) ← partitionLoop cmp m pivot (m + 1) buf left right
      let buf ← quicksort fuel buf left (i - 1)
      quicksort fuel buf i right

/-! The entries that are read or written, in their order: an access ends the list if it is outside
of the buffer. -/

def scanUpReads (buf : ℤ → α) (pivot : α) : ℕ → ℤ → List ℤ
  | 0, _ => []
  | fuel + 1, i =>
    i :: if (0 ≤ i ∧ i < m) ∧ cmp (buf i) pivot < 0 then scanUpReads buf pivot fuel (i + 1) else []

def scanDownReads (buf : ℤ → α) (pivot : α) : ℕ → ℤ → List ℤ
  | 0, _ => []
  | fuel + 1, j =>
    j :: if (0 ≤ j ∧ j < m) ∧ cmp (buf j) pivot > 0 then scanDownReads buf pivot fuel (j - 1)
      else []

def partitionAccesses (pivot : α) : ℕ → (ℤ → α) → ℤ → ℤ → List ℤ
  | 0, _, _, _ => []
  | fuel + 1, buf, i, j =>
    if i ≤ j then
      scanUpReads cmp m buf pivot (m + 1) i ++
      (scanUp cmp m buf pivot (m + 1) i).elim [] fun i =>
        scanDownReads cmp m buf pivot (m + 1) j ++
        (scanDown cmp m buf pivot (m + 1) j).elim [] fun j =>
          if i ≤ j then
            i :: j :: partitionAccesses pivot fuel (swapEntries buf i j) (i + 1) (j - 1)
          else partitionAccesses pivot fuel buf i j
    else []

def quicksortAccesses : ℕ → (ℤ → α) → ℤ → ℤ → List ℤ
  | 0, _, _, _ => []
  | fuel + 1, buf, left, right =>
    if left ≥ right ∨ left + right > intMax then []
    else
      let pivot := buf ((left + right) / 2)
      (left + right) / 2 :: partitionAccesses cmp m pivot (m + 1) buf left right ++
      (partitionLoop cmp m pivot (m + 1) buf left right).elim [] fun (buf, i) =>
        quicksortAccesses fuel buf left (i - 1) ++
        (quicksort cmp m fuel buf left (i - 1)).elim [] fun buf => quicksortAccesses fuel buf i
          right

/-- `quicksort_key_value_pairs` on a buffer of `m` entries. -/
def quicksortKeyValuePairs (buf : ℤ → α) (numberOfEntries : ℤ) : Option (ℤ → α) :=
  quicksort cmp m (m + 1) buf 0 (numberOfEntries - 1)

end

/-! ## The partition -/

section
variable {cmp : α → α → ℤ} {m : ℕ} {buf : ℤ → α} {p : α}

theorem swapEntries_eq (buf : ℤ → α) (i j : ℤ) : swapEntries buf i j = buf ∘ Equiv.swap i j := by
  funext x
  rw [swapEntries, Function.comp_apply, Equiv.swap_apply_def]
  split_ifs <;> simp_all

/-- The scan stops at the first entry that is not below the pivot. -/
theorem scanUp_eq (fuel : ℕ) {i s : ℤ} (hi : 0 ≤ i) (his : i ≤ s) (hs : s < m)
    (hstop : 0 ≤ cmp (buf s) p) (hfuel : s - i < fuel) :
    ∃ i', scanUp cmp m buf p fuel i = some i' ∧ i ≤ i' ∧ i' ≤ s ∧ 0 ≤ cmp (buf i') p ∧
      ∀ x, i ≤ x → x < i' → cmp (buf x) p < 0 := by
  induction fuel generalizing i with
  | zero => omega
  | succ fuel ih =>
    rw [scanUp, if_pos ⟨hi, by omega⟩]
    split
    · rename_i hlt
      have hne : i ≠ s := fun h => by rw [h] at hlt; omega
      obtain ⟨i', heq, hle, hle', hge, hbelow⟩ := ih (i := i + 1) (by omega) (by omega) (by omega)
      refine ⟨i', heq, by omega, hle', hge, fun x hx hx' => ?_⟩
      rcases eq_or_lt_of_le hx with rfl | hx
      · exact hlt
      · exact hbelow x (by omega) hx'
    · exact ⟨i, rfl, le_rfl, his, by omega, fun x hx hx' => by omega⟩

theorem scanDown_eq (fuel : ℕ) {j t : ℤ} (ht : 0 ≤ t) (htj : t ≤ j) (hj : j < m)
    (hstop : cmp (buf t) p ≤ 0) (hfuel : j - t < fuel) :
    ∃ j', scanDown cmp m buf p fuel j = some j' ∧ t ≤ j' ∧ j' ≤ j ∧ cmp (buf j') p ≤ 0 ∧
      ∀ x, j' < x → x ≤ j → 0 < cmp (buf x) p := by
  induction fuel generalizing j with
  | zero => omega
  | succ fuel ih =>
    rw [scanDown, if_pos ⟨by omega, hj⟩]
    split
    · rename_i hgt
      have hne : j ≠ t := fun h => by rw [h] at hgt; omega
      obtain ⟨j', heq, hle, hle', hge, habove⟩ := ih (j := j - 1) (by omega) (by omega) (by omega)
      refine ⟨j', heq, hle, by omega, hge, fun x hx hx' => ?_⟩
      rcases eq_or_lt_of_le hx' with rfl | hx'
      · exact hgt
      · exact habove x hx (by omega)
    · exact ⟨j, rfl, htj, le_rfl, by omega, fun x hx hx' => by omega⟩

def Inside (left right : ℤ) (indices : List ℤ) : Prop := ∀ x ∈ indices, left ≤ x ∧ x ≤ right

variable {left right : ℤ}

theorem Inside.append {xs ys : List ℤ} (hxs : Inside left right xs) (hys : Inside left right ys) :
    Inside left right (xs ++ ys) :=
  fun x hx => (List.mem_append.1 hx).elim (hxs x) (hys x)

theorem Inside.cons {left right x : ℤ} {xs : List ℤ} (hl : left ≤ x) (hr : x ≤ right)
    (hxs : Inside left right xs) : Inside left right (x :: xs) :=
  List.forall_mem_cons.2 ⟨⟨hl, hr⟩, hxs⟩

theorem Inside.mono {left right left' right' : ℤ} {xs : List ℤ} (hxs : Inside left right xs)
    (hl : left' ≤ left) (hr : right ≤ right') : Inside left' right' xs :=
  fun x hx => ⟨hl.trans (hxs x hx).1, (hxs x hx).2.trans hr⟩

variable {fuel : ℕ}

theorem inside_scanUpReads {i i' : ℤ} (h : scanUp cmp m buf p fuel i = some i') :
    Inside i i' (scanUpReads cmp m buf p fuel i) := by
  induction fuel generalizing i with
  | zero => exact nomatch h
  | succ fuel ih =>
    rw [scanUp] at h
    split_ifs at h with hin hlt
    · have hstop : i < i' := by
        have hself : i + 1 ∈ scanUpReads cmp m buf p fuel (i + 1) := by
          cases fuel with
          | zero => exact nomatch h
          | succ fuel => exact List.mem_cons_self
        have := (ih h _ hself).2
        omega
      intro x hx
      rw [scanUpReads, if_pos ⟨hin, hlt⟩] at hx
      rcases List.mem_cons.1 hx with rfl | hx
      · omega
      · have := ih h x hx
        omega
    · intro x hx
      rw [scanUpReads, if_neg fun hboth => hlt hboth.2] at hx
      have := List.mem_singleton.1 hx
      have := Option.some.inj h
      omega

theorem inside_scanDownReads {j j' : ℤ} (h : scanDown cmp m buf p fuel j = some j') :
    Inside j' j (scanDownReads cmp m buf p fuel j) := by
  induction fuel generalizing j with
  | zero => exact nomatch h
  | succ fuel ih =>
    rw [scanDown] at h
    split_ifs at h with hin hgt
    · have hstop : j' < j := by
        have hself : j - 1 ∈ scanDownReads cmp m buf p fuel (j - 1) := by
          cases fuel with
          | zero => exact nomatch h
          | succ fuel => exact List.mem_cons_self
        have := (ih h _ hself).1
        omega
      intro x hx
      rw [scanDownReads, if_pos ⟨hin, hgt⟩] at hx
      rcases List.mem_cons.1 hx with rfl | hx
      · omega
      · have := ih h x hx
        omega
    · intro x hx
      rw [scanDownReads, if_neg fun hboth => hgt hboth.2] at hx
      have := List.mem_singleton.1 hx
      have := Option.some.inj h
      omega

/-- The entries before `i` are not above the pivot and those after `j` not below it. -/
structure Separated (cmp : α → α → ℤ) (p : α) (left right : ℤ) (buf : ℤ → α) (i j : ℤ) : Prop where
  low : ∀ x, left ≤ x → x < i → cmp (buf x) p ≤ 0
  high : ∀ x, j < x → x ≤ right → 0 ≤ cmp (buf x) p

/-- One pass of both scans, bounded by an entry on each side. -/
theorem exists_scans {left right i j s t : ℤ} (hsep : Separated cmp p left right buf i j)
    (hl : 0 ≤ left) (hi : left ≤ i) (hj : j ≤ right) (hr : right < m) (his : i ≤ s) (hs : s ≤ right)
    (hsp : 0 ≤ cmp (buf s) p) (ht : left ≤ t) (htj : t ≤ j) (htp : cmp (buf t) p ≤ 0) :
    ∃ i' j', scanUp cmp m buf p (m + 1) i = some i' ∧ scanDown cmp m buf p (m + 1) j = some j' ∧
      Inside left right (scanUpReads cmp m buf p (m + 1) i) ∧
      Inside left right (scanDownReads cmp m buf p (m + 1) j) ∧
      i ≤ i' ∧ i' ≤ s ∧ t ≤ j' ∧ j' ≤ j ∧ Separated cmp p left right buf i' j' ∧
      (i' ≤ j' → Separated cmp p left right (swapEntries buf i' j') (i' + 1) (j' - 1)) := by
  obtain ⟨i', hup, hii, his', hge, hbelow⟩ :=
    scanUp_eq (m := m) (m + 1) (by omega) his (by omega) hsp (by push_cast; omega)
  obtain ⟨j', hdown, htj', hjj, hle, habove⟩ :=
    scanDown_eq (m := m) (m + 1) (by omega) htj (by omega) htp (by push_cast; omega)
  have hsep' : Separated cmp p left right buf i' j' := by
    constructor
    · intro x hx hx'
      rcases lt_or_ge x i with hxi | hxi
      · exact hsep.low x hx hxi
      · exact (hbelow x hxi hx').le
    · intro x hx hx'
      rcases lt_or_ge j x with hjx | hjx
      · exact hsep.high x hjx hx'
      · exact (habove x hx hjx).le
  have hups := (inside_scanUpReads hup).mono hi (his'.trans hs)
  have hdowns := (inside_scanDownReads hdown).mono (ht.trans htj') hj
  refine ⟨i', j', hup, hdown, hups, hdowns, hii, his', htj', hjj, hsep', fun hij => ⟨?_, ?_⟩⟩
  · intro x hx hx'
    unfold swapEntries
    split_ifs with hxj hxi
    · rwa [show i' = j' by omega]
    · exact hle
    · exact hsep'.low x hx (by omega)
  · intro x hx hx'
    unfold swapEntries
    split_ifs with hxj hxi
    · exact hge
    · rwa [show j' = i' by omega]
    · exact hsep'.high x (by omega) hx'

/-- What the loop keeps once two entries were swapped: both indices have entries behind them. -/
structure Closing (cmp : α → α → ℤ) (p : α) (left right : ℤ) (buf : ℤ → α) (i j : ℤ) : Prop
    extends Separated cmp p left right buf i j where
  left_lt : left < i
  le_right : i ≤ right
  le_j : left - 1 ≤ j
  j_lt : j < right

structure Partitioned (cmp : α → α → ℤ) (p : α) (left right : ℤ) (buf buf' : ℤ → α)
    (i : ℤ) : Prop where
  rearranged : Rearranged left right buf buf'
  left_lt : left < i
  le_right : i ≤ right
  low : ∀ x, left ≤ x → x ≤ i - 1 → cmp (buf' x) p ≤ 0
  high : ∀ x, i ≤ x → x ≤ right → 0 ≤ cmp (buf' x) p

theorem rearranged_swapEntries {left right i j : ℤ} (hi : left ≤ i) (hir : i ≤ right)
    (hj : left ≤ j) (hjr : j ≤ right) : Rearranged left right buf (swapEntries buf i j) := by
  rw [swapEntries_eq]
  exact .swap hi hir hj hjr

theorem partitionLoop_closing (hl : 0 ≤ left) (hr : right < m) (fuel : ℕ) {i j : ℤ}
    (hc : Closing cmp p left right buf i j) (hfuel : j + 1 - i < fuel) (hpos : 0 < fuel) :
    ∃ buf' i', partitionLoop cmp m p fuel buf i j = some (buf', i') ∧
      Partitioned cmp p left right buf buf' i' ∧
      Inside left right (partitionAccesses cmp m p fuel buf i j) := by
  induction fuel generalizing buf i j with
  | zero => omega
  | succ fuel ih =>
    have hlt := hc.left_lt
    have hler := hc.le_right
    have hjlt := hc.j_lt
    rw [partitionLoop, partitionAccesses]
    by_cases hij : i ≤ j
    · rw [if_pos hij, if_pos hij]
      -- the entries just behind the indices stop the scans
      obtain ⟨i', j', hup, hdown, hups, hdowns, hii, hij', hjj', hjj, hsep, hswap⟩ :=
        exists_scans (s := j + 1) (t := i - 1) hc.toSeparated hl (by omega) (by omega) hr (by omega)
          (by omega) (hc.high _ (by omega) (by omega)) (by omega) (by omega)
          (hc.low _ (by omega) (by omega))
      simp only [hup, hdown, Option.bind_eq_bind, Option.bind_some, Option.elim_some]
      split_ifs with hle
      · have hnext : Closing cmp p left right (swapEntries buf i' j') (i' + 1) (j' - 1) :=
          ⟨hswap hle, by omega, by omega, by omega, by omega⟩
        obtain ⟨buf', k, heq, hpart, hinside⟩ := ih hnext (by omega) (by omega)
        refine ⟨buf', k, heq, { hpart with rearranged := ?_ }, hups.append (hdowns.append ?_)⟩
        · exact (rearranged_swapEntries (by omega) (by omega) (by omega) (by omega)).trans
            hpart.rearranged
        · exact .cons (by omega) (by omega) (.cons (by omega) (by omega) hinside)
      · obtain ⟨buf', k, heq, hpart, hinside⟩ :=
          ih ⟨hsep, by omega, by omega, by omega, by omega⟩ (by omega) (by omega)
        exact ⟨buf', k, heq, hpart, hups.append (hdowns.append hinside)⟩
    · rw [if_neg hij, if_neg hij]
      exact ⟨buf, i, rfl, ⟨.refl _ _ _, hlt, hler, fun x hx hx' => hc.low x hx (by omega),
        fun x hx hx' => hc.high x (by omega) hx'⟩, nofun⟩

/-- The first pass meets the pivot from both sides. -/
theorem partitionLoop_eq (hcmp : TotalPreorder cmp) (buf : ℤ → α) (hl : 0 ≤ left)
    (hlr : left < right) (hr : right < m) :
    ∃ buf' i, partitionLoop cmp m (buf ((left + right) / 2)) (m + 1) buf left right =
      some (buf', i) ∧ Partitioned cmp (buf ((left + right) / 2)) left right buf buf' i ∧
      Inside left right
        (partitionAccesses cmp m (buf ((left + right) / 2)) (m + 1) buf left right) := by
  have hself := hcmp.self (buf ((left + right) / 2))
  set p := buf ((left + right) / 2) with hp
  have hstart : Separated cmp p left right buf left right :=
    ⟨fun x hx hx' => by omega, fun x hx hx' => by omega⟩
  obtain ⟨i', j', hup, hdown, hups, hdowns, hii, his, htj, hjj, hsep, hswap⟩ :=
    exists_scans (s := (left + right) / 2) (t := (left + right) / 2) hstart hl le_rfl le_rfl hr
      (by omega) (by omega) hself.ge (by omega) (by omega) hself.le
  have hle : i' ≤ j' := his.trans htj
  have hnext : Closing cmp p left right (swapEntries buf i' j') (i' + 1) (j' - 1) :=
    ⟨hswap hle, by omega, by omega, by omega, by omega⟩
  obtain ⟨buf', k, heq, hpart, hinside⟩ := partitionLoop_closing hl hr m hnext (by omega) (by omega)
  refine ⟨buf', k, ?_, { hpart with rearranged := ?_ }, ?_⟩
  · rw [partitionLoop, if_pos hlr.le]
    simp only [hup, hdown, Option.bind_eq_bind, Option.bind_some]
    rw [if_pos hle, heq]
  · exact (rearranged_swapEntries (by omega) (by omega) (by omega) (by omega)).trans
      hpart.rearranged
  · rw [partitionAccesses, if_pos hlr.le]
    simp only [hup, hdown, Option.elim_some]
    rw [if_pos hle]
    exact hups.append (hdowns.append
      (.cons (by omega) (by omega) (.cons (by omega) (by omega) hinside)))

/-! ## The sort -/

variable {buf' : ℤ → α}

theorem quicksort_eq_some (hcmp : TotalPreorder cmp) (hl : 0 ≤ left) (hr : right < m)
    (h : quicksort cmp m fuel buf left right = some buf') :
    Rearranged left right buf buf' ∧ SortedOn (fun a b => cmp a b ≤ 0) left right buf' := by
  induction fuel generalizing buf buf' left right with
  | zero => exact nomatch h
  | succ fuel ih =>
    rw [quicksort] at h
    by_cases hlr : left ≥ right
    · rw [if_pos hlr, Option.some_inj] at h
      subst h
      exact ⟨.refl _ _ _, fun x y hx hxy hy => by omega⟩
    rw [if_neg hlr] at h
    split_ifs at h
    obtain ⟨buf₁, i, hloop, hpart, -⟩ := partitionLoop_eq hcmp buf hl (by omega) hr
    have hlt := hpart.left_lt
    have hler := hpart.le_right
    simp only [hloop, Option.bind_eq_bind, Option.bind_some] at h
    obtain ⟨buf₂, h₂, h₃⟩ := Option.bind_eq_some_iff.1 h
    obtain ⟨hre₂, hsort₂⟩ := ih hl (by omega) h₂
    obtain ⟨hre₃, hsort₃⟩ := ih (by omega) hr h₃
    have hcalls := (hre₂.mono le_rfl (by omega)).trans (hre₃.mono (by omega) le_rfl)
    refine ⟨hpart.rearranged.trans hcalls, ?_⟩
    have hkeep (x : ℤ) (hx : x ≤ i - 1) : buf' x = buf₂ x := hre₃.eq_outside (.inl (by omega))
    have hlow : ∀ x, left ≤ x → x ≤ i - 1 → cmp (buf₂ x) (buf ((left + right) / 2)) ≤ 0 :=
      hre₂.forall_segment (P := fun a => cmp a (buf ((left + right) / 2)) ≤ 0) le_rfl le_rfl
        hpart.low
    have hhigh : ∀ x, i ≤ x → x ≤ right → 0 ≤ cmp (buf' x) (buf ((left + right) / 2)) := by
      refine hre₃.forall_segment (P := fun a => 0 ≤ cmp a (buf ((left + right) / 2))) le_rfl le_rfl
        fun x hx hx' => ?_
      rw [hre₂.eq_outside (.inr (by omega))]
      exact hpart.high x hx hx'
    refine SortedOn.join (p := buf ((left + right) / 2)) (i := i) hcmp.trans ?_ hsort₃ ?_ ?_
    · intro x y hx hxy hy
      rw [hkeep x (by omega), hkeep y hy]
      exact hsort₂ x y hx hxy hy
    · intro x hx hx'
      rw [hkeep x hx']
      exact hlow x hx hx'
    · exact fun x hx hx' => hcmp.le_of_nonneg (hhigh x hx hx')

/-- Up to index `2^30` the sum `left + right` does not overflow. -/
theorem isSome_quicksort (hcmp : TotalPreorder cmp) (hrange : left ≥ right ∨ right ≤ 2 ^ 30)
    (hl : 0 ≤ left) (hr : right < m) (hfuel : right - left < fuel) (hpos : 0 < fuel) :
    (quicksort cmp m fuel buf left right).isSome := by
  induction fuel generalizing buf left right with
  | zero => omega
  | succ fuel ih =>
    rw [quicksort]
    by_cases hlr : left ≥ right
    · rw [if_pos hlr]
      rfl
    have hsum : ¬ left + right > intMax := by
      unfold intMax
      omega
    obtain ⟨buf₁, i, hloop, hpart, -⟩ := partitionLoop_eq hcmp buf hl (by omega) hr
    have hlt := hpart.left_lt
    have hler := hpart.le_right
    rw [if_neg hlr, if_neg hsum]
    simp only [hloop, Option.bind_eq_bind, Option.bind_some]
    have hfirst : (quicksort cmp m fuel buf₁ left (i - 1)).isSome :=
      ih (by omega) hl (by omega) (by omega) (by omega)
    obtain ⟨buf₂, h₂⟩ := Option.isSome_iff_exists.1 hfirst
    rw [h₂, Option.bind_some]
    exact ih (by omega) (by omega) hr (by omega) (by omega)

/-- Whether or not there is a result, only entries of the range are used. -/
theorem inside_quicksortAccesses (hcmp : TotalPreorder cmp) (hl : 0 ≤ left) (hr : right < m) :
    Inside left right (quicksortAccesses cmp m fuel buf left right) := by
  induction fuel generalizing buf left right with
  | zero => exact nofun
  | succ fuel ih =>
    rw [quicksortAccesses]
    split_ifs with hend
    · exact nofun
    obtain ⟨buf₁, i, hloop, hpart, hinside⟩ := partitionLoop_eq hcmp buf hl (by omega) hr
    have hlt := hpart.left_lt
    have hler := hpart.le_right
    simp only [hloop, Option.elim_some]
    have hfirst : Inside left right (quicksortAccesses cmp m fuel buf₁ left (i - 1)) :=
      (ih hl (by omega)).mono le_rfl (by omega)
    refine .append (.cons (by omega) (by omega) hinside) (.append hfirst ?_)
    cases quicksort cmp m fuel buf₁ left (i - 1) with
    | none => exact nofun
    | some buf₂ => exact (ih (by omega) hr).mono (by omega) le_rfl

theorem scanUp_const (hp : cmp p p = 0) {i i' : ℤ}
    (h : scanUp cmp m (fun _ => p) p fuel i = some i') : i' = i := by
  cases fuel with
  | zero => exact nomatch h
  | succ fuel =>
    rw [scanUp] at h
    split_ifs at h
    · omega
    · exact (Option.some.inj h).symm

theorem scanDown_const (hp : cmp p p = 0) {j j' : ℤ}
    (h : scanDown cmp m (fun _ => p) p fuel j = some j') : j' = j := by
  cases fuel with
  | zero => exact nomatch h
  | succ fuel =>
    rw [scanDown] at h
    split_ifs at h
    · omega
    · exact (Option.some.inj h).symm

/-- If all entries are the same, the indices meet in the middle. -/
theorem partitionLoop_const (hp : cmp p p = 0) {i j k : ℤ} (hij : i ≤ j + 2)
    (h : partitionLoop cmp m p fuel (fun _ => p) i j = some (buf', k)) : 2 * k ≤ i + j + 2 := by
  induction fuel generalizing i j with
  | zero => exact nomatch h
  | succ fuel ih =>
    rw [partitionLoop] at h
    split_ifs at h with hle
    · simp only [Option.bind_eq_bind] at h
      obtain ⟨i', hup, h₁⟩ := Option.bind_eq_some_iff.1 h
      obtain ⟨j', hdown, h₂⟩ := Option.bind_eq_some_iff.1 h₁
      have hswap : swapEntries (fun _ => p) i j = fun _ => p := by
        rw [swapEntries_eq]
        rfl
      rw [scanUp_const hp hup, scanDown_const hp hdown, if_pos hle, hswap] at h₂
      have hnext := ih (by omega) h₂
      omega
    · have hk := (Prod.mk.inj (Option.some.inj h)).2
      omega

/-- The last call with more than one entry at the right end of the range has at most three. -/
theorem quicksort_const (hcmp : TotalPreorder cmp) (hl : 0 ≤ left) (hr : right < m)
    (h : quicksort cmp m fuel (fun _ => p) left right = some buf') :
    left ≥ right ∨ right ≤ 2 ^ 30 := by
  induction fuel generalizing left buf' with
  | zero => exact nomatch h
  | succ fuel ih =>
    rw [quicksort] at h
    split_ifs at h with hlr hsum
    · exact .inl hlr
    obtain ⟨buf₁, i, hloop, hpart, -⟩ := partitionLoop_eq hcmp (fun _ => p) hl (not_le.1 hlr) hr
    have hlt := hpart.left_lt
    have hler := hpart.le_right
    have hmiddle := partitionLoop_const (hcmp.self p) (by omega) hloop
    simp only [hloop, Option.bind_eq_bind, Option.bind_some] at h
    obtain ⟨buf₂, h₂, h₃⟩ := Option.bind_eq_some_iff.1 h
    have hcalls := hpart.rearranged.trans
      ((quicksort_eq_some hcmp hl (by omega) h₂).1.mono le_rfl (by omega))
    obtain ⟨σ, -, rfl⟩ := hcalls
    unfold intMax at hsum
    have hlast := ih (by omega) h₃
    omega

/-- The sort of a range of every array uses only the entries of the range, has a result, and leaves
the range sorted and the rest as it was, if and only if the sum of two indices of the range is an
`int`. -/
theorem quicksort_sorts_iff [Nonempty α] (hcmp : TotalPreorder cmp) {left right : ℤ} (hl : 0 ≤ left)
    (hr : right < m) :
    (∀ buf : ℤ → α, Inside left right (quicksortAccesses cmp m (m + 1) buf left right) ∧
      ∃ buf', quicksort cmp m (m + 1) buf left right = some buf' ∧ Rearranged left right buf buf' ∧
        SortedOn (fun a b => cmp a b ≤ 0) left right buf') ↔
    left ≥ right ∨ right ≤ 2 ^ 30 := by
  constructor
  · intro h
    obtain ⟨p⟩ := ‹Nonempty α›
    obtain ⟨-, buf', hsome, -⟩ := h fun _ => p
    exact quicksort_const hcmp hl hr hsome
  · intro hrange buf
    refine ⟨inside_quicksortAccesses hcmp hl hr, ?_⟩
    have hsome : (quicksort cmp m (m + 1) buf left right).isSome :=
      isSome_quicksort hcmp hrange hl hr (by push_cast; omega) m.succ_pos
    obtain ⟨buf', hbuf'⟩ := Option.isSome_iff_exists.1 hsome
    exact ⟨buf', hbuf', quicksort_eq_some hcmp hl hr hbuf'⟩

theorem totalPreorder_sub : TotalPreorder fun a b : ℤ => a - b :=
  ⟨fun a b => by omega, fun a b c => by omega⟩

theorem quicksort_sorts_reversed : Inside 1 3
      (quicksortAccesses (fun a b : ℤ => a - b) 5 6 (fun x => -x) 1 3) ∧
    ∃ buf', quicksort (fun a b : ℤ => a - b) 5 6 (fun x => -x) 1 3 = some buf' ∧
      Rearranged 1 3 (fun x => -x) buf' ∧ SortedOn (fun a b => a - b ≤ 0) 1 3 buf' :=
  (quicksort_sorts_iff totalPreorder_sub (by decide) (by decide)).2 (.inr (by decide)) fun x => -x

/-- Two entries at the end of an array of `2^30 + 2` entries: their indices add up to `2^31 + 1`. -/
theorem quicksort_eq_none : quicksort (fun a b : ℤ => a - b) (2 ^ 30 + 2) (2 ^ 30 + 2 + 1)
    (fun _ => 0) (2 ^ 30) (2 ^ 30 + 1) = none := by
  rw [quicksort, if_neg (by decide), if_pos (by decide)]

theorem quicksortKeyValuePairs_eq_some (hcmp : TotalPreorder cmp)
    (h : quicksortKeyValuePairs cmp m buf m = some buf') :
    (entries buf' m).Perm (entries buf m) ∧ (entries buf' m).Pairwise fun a b => cmp a b ≤ 0 := by
  obtain ⟨hre, hsort⟩ := quicksort_eq_some hcmp le_rfl (by omega) h
  exact ⟨hre.perm, hsort.pairwise⟩

theorem isSome_quicksortKeyValuePairs (hcmp : TotalPreorder cmp) (hm : m ≤ 2 ^ 30) (buf : ℤ → α) :
    (quicksortKeyValuePairs cmp m buf m).isSome :=
  isSome_quicksort hcmp (.inr (by omega)) le_rfl (by omega) (by push_cast; omega) m.succ_pos

end

end Pequin.ExternalSort
